import QueryFacts.Lexer.Fault

/-! Everything that can be wrong with a statement, a file, or a request to analyze. -/

namespace QueryFacts

/-- What a WITH clause lacks, or has too much of. -/
inductive WithFault where
  | expectedName
  | expectedAs
  | expectedBody
  | unclosedBody
  | unexpectedAs
  deriving DecidableEq

def WithFault.message : WithFault → String
  | expectedName => "expected a CTE name"
  | expectedAs => "expected AS after the CTE name"
  | expectedBody => "expected a parenthesized query after AS"
  | unclosedBody => "CTE body is never closed"
  | unexpectedAs => "unexpected AS after the CTE body"

/-- Why the operating system does not read a file. -/
inductive ReadFault where
  | missing
  /-- The path is that of a directory. -/
  | directory
  /-- The path goes on behind a file. -/
  | notDirectory
  deriving DecidableEq

def ReadFault.message : ReadFault → String
  | missing => "No such file or directory (os error 2)"
  | directory => "Is a directory (os error 21)"
  | notDirectory => "Not a directory (os error 20)"

/-- Positions of tokens are counted from zero. -/
inductive Error where
  | emptyQuery
  /-- The statement starts with these words, in normal form. -/
  | unsupportedStatement (words : List String)
  | lexical (fault : Lexer.Fault) (position : Lexer.Position)
  | unmatchedParenthesis (position : Nat)
  | unclosedParenthesis (position : Nat)
  | malformedWith (position : Nat) (fault : WithFault)
  | createTableAsSelect
  | nestingTooDeep (depth limit : Nat)
  | tooManyTokens (count limit : Nat)
  | recursionLimit (depth limit : Nat)
  | unreadableFile (path : String) (fault : ReadFault)
  | invalidEncoding (path : String)
  | nothingToAnalyze
  deriving DecidableEq

def Error.message : Error → String
  | emptyQuery => "Empty queries are not supported!"
  | unsupportedStatement words => "Not supported query type: " ++ String.intercalate " " words
  | lexical fault position =>
    s!"Failed to tokenize query: {fault.message} at Line: {position.line}, Column: {position.column}"
  | unmatchedParenthesis position => s!"Unmatched closing parenthesis at token {position}"
  | unclosedParenthesis position => s!"Parenthesis opened at token {position} is never closed"
  | malformedWith position fault => s!"Malformed WITH clause at token {position}: {fault.message}"
  | createTableAsSelect => "Malformed CREATE TABLE statement: CREATE TABLE ... AS SELECT is not supported"
  | nestingTooDeep depth limit => s!"Parenthesis nesting depth {depth} exceeds the limit of {limit}"
  | tooManyTokens count limit => s!"Query has {count} tokens, more than the limit of {limit}"
  | recursionLimit depth limit => s!"Nested query depth {depth} exceeds the limit of {limit}"
  | unreadableFile path _ => s!"Failed to read SQL file: {path}"
  | invalidEncoding path => s!"SQL file is neither UTF-8 nor Windows-1252: {path}"
  | nothingToAnalyze => "Nothing to analyze: pass --query or at least one path"

end QueryFacts

import QueryFacts.Token.Kind

/-! Tokens: lexemes together with their place among the parentheses and clauses of a
statement. -/

namespace QueryFacts

/-- What a pair of parentheses is for. It is known when the pair opens. -/
inductive ParenKind where
  /-- In the place of a table. -/
  | subquery
  /-- An expression in the place of a column. -/
  | columnDefinition
  /-- Arguments of a function, or a plain group. -/
  | nestedFunction
  /-- The body of a common table expression. -/
  | withQuery
  /-- The column list of a common table expression. -/
  | withColumns
  | createTableColumns
  deriving DecidableEq

inductive ParenSide where
  | opening
  | closing
  deriving DecidableEq

structure ParenRole where
  kind : ParenKind
  side : ParenSide
  deriving DecidableEq

/-- A keyword that says what the names after it are. -/
structure KeywordMark where
  word : String
  position : Nat
  deriving DecidableEq

structure Token where
  /-- The text without the quotes of an identifier; strings keep theirs. -/
  value : String
  /-- The normal form of an unquoted word, and the value of any other token. -/
  normalized : String
  kind : TokenKind
  quote : Option Char
  spaceBefore : Bool
  paren : Option ParenRole
  lastKeyword : Option KeywordMark
  /-- How many sub-queries the token is in. -/
  level : Nat
  /-- The innermost open parenthesis around the token. -/
  enclosing : Option Nat
  /-- The other parenthesis of a pair. -/
  matching : Option Nat
  position : Nat
  deriving DecidableEq

namespace Token

def isPunctuation (token : Token) (text : String) : Bool := token.kind == .punctuation && token.value == text

def isKeyword (token : Token) : Bool := token.kind == .keyword

/-- The token as it is written in a query. -/
def display (token : Token) : String :=
  match token.quote with
  | some quote => String.ofList (quote :: token.value.toList ++ [if quote = '[' then ']' else quote])
  | none => token.value

/-- Tokens that stood apart are written with a space between them, except inside a
parenthesis or dotted name and before a comma. -/
def needsSpace (before after : Token) : Bool :=
  after.spaceBefore && !(before.kind == .dot || before.value == "(")
    && !(after.kind == .dot || after.value == ")" || after.value == ",")

/-- Tokens written one after the other; `before` is the token in front of them. -/
def writeAfter (before : Option Token) : List Token → List Char
  | [] => []
  | token :: rest =>
    (if before.any (needsSpace · token) then [' '] else []) ++ token.display.toList ++ writeAfter (some token) rest

end Token

/-- The tokens of a statement. -/
structure TokenSequence where
  tokens : Array Token := #[]
  deriving DecidableEq

namespace TokenSequence

def size (sequence : TokenSequence) : Nat := sequence.tokens.size

/-- The tokens strictly between two positions. -/
def between (sequence : TokenSequence) (first last : Nat) : List Token :=
  (sequence.tokens.toList.take last).drop (first + 1)

/-- The text of the tokens strictly between two positions. -/
def write (sequence : TokenSequence) (first last : Nat) : String :=
  String.ofList (Token.writeAfter none (sequence.between first last))

end TokenSequence

end QueryFacts

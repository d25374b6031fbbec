import QueryFacts.Cursor
import QueryFacts.Error
import QueryFacts.Lexeme
import QueryFacts.Limits

/-! One pass from left to right that gives every lexeme its place among the
parentheses of the statement and the last significant keyword before it. -/

namespace QueryFacts

/-- An open parenthesis, and the keyword that counts again after it is closed. -/
structure OpenParen where
  position : Nat
  kind : ParenKind
  lastKeyword : Option KeywordMark
  deriving DecidableEq

/-- The tokens so far, and what the next ones depend on. -/
structure Nesting where
  tokens : Array Token := #[]
  /-- The open parentheses, innermost first. -/
  opened : List OpenParen := []
  lastKeyword : Option KeywordMark := none
  /-- How many parentheses are open around each WITH header that is not finished. -/
  headers : List Nat := []
  /-- The column list of a table definition is still to come. -/
  awaitsColumns : Bool := false
  deriving DecidableEq

namespace Nesting

def depth (state : Nesting) : Nat := state.opened.length

/-- How many of the open parentheses are sub-queries. -/
def level (state : Nesting) : Nat := state.opened.countP (·.kind = .subquery)

/-- The role of a parenthesis that opens now. -/
def parenKind (state : Nesting) : ParenKind :=
  match state.tokens.back? with
  | none => .nestedFunction
  | some before =>
    let inHeader := state.headers.head? == some state.depth
    if before.isKeyword && Keyword.precedesSubquery before.normalized then .subquery
    else if inHeader && before.isKeyword && before.normalized == "AS" then .withQuery
    else if inHeader && before.kind == .name then .withColumns
    else if state.awaitsColumns && state.opened.isEmpty && before.kind == .name
        && !state.lastKeyword.any (·.word == "SELECT") then .createTableColumns
    else if before.isKeyword && Keyword.precedesColumns before.normalized then .columnDefinition
    else if before.isPunctuation "," && state.opened.head?.all
        (fun paren => paren.kind = .subquery ∨ paren.kind = .columnDefinition ∨ paren.kind = .withQuery) then
      .columnDefinition
    else .nestedFunction

/-- The token of a lexeme as far as it does not depend on what the lexeme does. -/
def tokenOf (state : Nesting) (lexeme : Lexeme) : Token where
  value := lexeme.value
  normalized := match lexeme.kind, lexeme.quote with
    | .keyword, none => Keyword.normalForm lexeme.value
    | .name, none => Keyword.normalForm lexeme.value
    | _, _ => lexeme.value
  kind := lexeme.kind
  quote := lexeme.quote
  spaceBefore := lexeme.spaceBefore
  paren := none
  lastKeyword := state.lastKeyword
  level := state.level
  enclosing := state.opened.head?.map (·.position)
  matching := none
  position := state.tokens.size

def openParen (limits : Limits) (state : Nesting) (token : Token) : Except Error Nesting :=
  let kind := state.parenKind
  let opened := ⟨token.position, kind, state.lastKeyword⟩ :: state.opened
  if opened.length > limits.maxNestingDepth then
    .error (.nestingTooDeep opened.length limits.maxNestingDepth)
  else
    let after := { state with opened, awaitsColumns := state.awaitsColumns && !(kind == ParenKind.createTableColumns) }
    .ok { after with
      tokens := state.tokens.push { token with paren := some ⟨kind, .opening⟩, level := after.level } }

/-- The clause that the pair interrupted goes on after it. -/
def closeParen (state : Nesting) (token : Token) : Except Error Nesting :=
  match state.opened with
  | [] => .error (.unmatchedParenthesis token.position)
  | paren :: outer =>
    let closing := { token with
      paren := some ⟨paren.kind, .closing⟩
      matching := some paren.position
      enclosing := outer.head?.map (·.position) }
    .ok { state with
      tokens := (state.tokens.modify paren.position fun opening =>
        { opening with matching := some token.position }).push closing
      opened := outer
      lastKeyword := paren.lastKeyword
      headers := state.headers.dropWhile (outer.length < ·) }

/-- WITH opens a header where a query starts; the keyword of the main statement ends it. -/
def headersAfter (state : Nesting) (word : String) : List Nat :=
  if word == "WITH" then
    if state.tokens.back?.all (·.isPunctuation "(") then state.depth :: state.headers else state.headers
  else if Keyword.startsStatement word && state.headers.head? == some state.depth then state.headers.drop 1
  else state.headers

def passKeyword (state : Nesting) (token : Token) : Nesting where
  tokens := state.tokens.push token
  opened := state.opened
  lastKeyword :=
    if Keyword.isInsignificant token.normalized then state.lastKeyword
    else some ⟨token.normalized, token.position⟩
  headers := state.headersAfter token.normalized
  awaitsColumns := state.awaitsColumns

def step (limits : Limits) (state : Nesting) (lexeme : Lexeme) : Except Error Nesting :=
  let token := state.tokenOf lexeme
  if lexeme.isPunctuation "(" then state.openParen limits token
  else if lexeme.isPunctuation ")" then state.closeParen token
  else if lexeme.isKeyword then .ok (state.passKeyword token)
  else .ok { state with tokens := state.tokens.push token }

def start (lexemes : List Lexeme) : Nesting := { awaitsColumns := Lexeme.isCreateTable lexemes }

/-- Every parenthesis has to be closed. -/
def finish (state : Nesting) : Except Error TokenSequence :=
  match state.opened with
  | [] => .ok ⟨state.tokens⟩
  | paren :: _ => .error (.unclosedParenthesis paren.position)

end Nesting

/-- One token for each lexeme. -/
def annotate (limits : Limits) (lexemes : List Lexeme) : Except Error TokenSequence := do
  let final ← lexemes.foldlM (Nesting.step limits) (Nesting.start lexemes)
  final.finish

/-- The tokens of a statement. -/
def tokenize (limits : Limits) (text : List Char) : Except Error TokenSequence :=
  match Lexeme.ofText text with
  | .error stop => .error (.lexical stop.fault (stop.position text))
  | .ok lexemes =>
    if lexemes.length > limits.maxTokens then .error (.tooManyTokens lexemes.length limits.maxTokens)
    else annotate limits lexemes

end QueryFacts

import QueryFacts.Segment

/-! The form of a query text that is tokenized: on one line, and with every
double-quoted identifier written bare or in backticks. -/

namespace QueryFacts
open Text

/-- An ASCII letter or `_`, then ASCII letters, digits, `_` and `$`. -/
def isPlainIdentifier : List Char → Bool
  | [] => false
  | c :: rest => (c.isAlpha || c == '_') && rest.all fun d => d.isAlphanum || d == '_' || d == '$'

/-- An identifier bare where that is possible and in backticks otherwise. -/
def writeIdentifier (name : List Char) : List Char :=
  if isPlainIdentifier name then name else enclose backtick (double backtick name)

/-- Line breaks in code become spaces. String literals, backticked identifiers and
comments stay as they are. -/
def Segment.normalize (segment : Segment) : List Char :=
  match segment.kind with
  | .code => segment.text.map fun c => if c = '\n' ∨ c = '\r' then ' ' else c
  | .doubleQuoted => writeIdentifier ((enclosed? doubleQuote segment.text).getD segment.text)
  | _ => segment.text

def normalize (text : List Char) : List Char := (Segment.ofText text).flatMap Segment.normalize

end QueryFacts

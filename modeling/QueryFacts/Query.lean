import QueryFacts.Analysis
import QueryFacts.Comment
import QueryFacts.Fingerprint
import QueryFacts.RowLimit
import QueryFacts.Value

/-! Queries and their properties. Each stage of the analysis runs when a property first
needs it and at most once, so that what only needs the text never fails. -/

namespace QueryFacts

structure Query where
  /-- The text as given. -/
  raw : String
  limits : Limits
  tokenStage : Thunk (Except Error TokenSequence)
  kindStage : Thunk (Except Error StatementKind)
  factStage : Thunk (Except Error Facts)

namespace Query

def ofText (raw : String) (limits : Limits) : Query :=
  let tokenStage := Thunk.mk fun _ => queryTokens limits raw
  let kindStage := Thunk.mk fun _ => tokenStage.get >>= StatementKind.ofTokens
  { raw, limits, tokenStage, kindStage, factStage := Thunk.mk fun _ => factsAt limits 0 raw }

/-- The normalized text, which the analysis runs on. -/
def text (query : Query) : String := String.ofList (normalize query.raw.toList)

def tokens (query : Query) : Except Error TokenSequence := query.tokenStage.get

def kind (query : Query) : Except Error StatementKind := query.kindStage.get

def facts (query : Query) : Except Error Facts := query.factStage.get

def rowLimit (query : Query) : Except Error (Option RowLimit) := query.tokens.map RowLimit.ofTokens

/-- The values of a statement of a kind that has them. -/
def values (query : Query) : Except Error (List Value) := do
  let kind ← query.kind
  if kind.hasValues then return Value.ofTokens (← query.tokens) else return []

/-- The values with the columns that they are for. Without a list of columns these are
`column_1`, `column_2` and so on. -/
def assignments (query : Query) : Except Error (List (String × Value)) := do
  let values ← query.values
  let facts ← query.facts
  match (facts.columnsBySection.find? .insert).getD [] with
  | [] => return values.zipIdx.map fun (value, index) => ("column_" ++ toString (index + 1), value)
  | columns => return columns.zip values

def comments (query : Query) : List String := (QueryFacts.comments query.raw.toList).map String.ofList

def withoutComments (query : Query) : String := String.ofList (stripComments query.raw.toList)

def fingerprint (query : Query) : String := String.ofList (Fingerprint.ofText query.raw.toList)

end Query

end QueryFacts

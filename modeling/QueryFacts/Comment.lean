import QueryFacts.Segment
import QueryFacts.Text.Blank

/-! The comments of a text, and the text without them. -/

namespace QueryFacts
open Text

/-- Every comment in order, with its delimiters. -/
def comments (text : List Char) : List (List Char) :=
  ((Segment.ofText text).filter (·.kind.isComment)).map (·.text)

/-- What a segment keeps when comments go: texts, with `none` for a gap between them. -/
def Segment.kept (segment : Segment) : List (Option (List Char)) :=
  match segment.kind with
  | .code => segment.text.map fun c => if isBlank c then none else some [c]
  | .blockComment | .lineComment => [none]
  | _ => [some segment.text]

/-- Joins texts with one space for the gaps between two of them. `started` says that a
text came before and `gap` that a gap did. -/
def joinKept (started gap : Bool) : List (Option (List Char)) → List Char
  | [] => []
  | none :: rest => joinKept started true rest
  | some text :: rest => (if started && gap then ' ' :: text else text) ++ joinKept true false rest

/-- A text without its comments and with one space for each run of blanks outside
quoted runs. -/
def stripComments (text : List Char) : List Char :=
  joinKept false false ((Segment.ofText text).flatMap Segment.kept)

end QueryFacts

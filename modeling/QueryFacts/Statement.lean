import QueryFacts.Segment
import QueryFacts.Text.Blank

/-! The statements of a script: its parts between semicolons that stand in code. -/

namespace QueryFacts
open Text

/-- Each character of a text, marked when it is a semicolon in code. -/
def markSemicolons (text : List Char) : List (Char × Bool) :=
  (Segment.ofText text).flatMap fun segment => segment.text.map fun c => (c, segment.kind = .code ∧ c = ';')

/-- The parts of a marked text between its marks. -/
def splitAtMarks : List (Char × Bool) → List (List Char)
  | [] => [[]]
  | (_, true) :: rest => [] :: splitAtMarks rest
  | (c, false) :: rest => match splitAtMarks rest with
    | [] => [[c]]
    | part :: parts => (c :: part) :: parts

/-- Something besides blanks and comments. -/
def hasContent (text : List Char) : Bool :=
  (Segment.ofText text).any fun segment => !segment.kind.isComment && segment.text.any (!isBlank ·)

def splitStatements (text : List Char) : List (List Char) :=
  ((splitAtMarks (markSemicolons text)).filter hasContent).map trim

end QueryFacts

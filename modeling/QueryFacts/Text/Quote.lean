/-! The three quote characters, and texts written with each of their quotes doubled. -/

namespace QueryFacts.Text

def singleQuote : Char := '\x27'

def doubleQuote : Char := '\x22'

def backtick : Char := '\x60'

/-- Writes every `quote` of a text twice. -/
def double (quote : Char) (text : List Char) : List Char :=
  text.flatMap fun c => if c = quote then [c, c] else [c]

/-- Reads two quotes that follow each other as one. -/
def undouble (quote : Char) : List Char → List Char
  | [] => []
  | [c] => [c]
  | c :: d :: rest => if c = quote ∧ d = quote then c :: undouble quote rest else c :: undouble quote (d :: rest)

theorem undouble_double (quote : Char) (text : List Char) : undouble quote (double quote text) = text := by
  induction text with
  | nil => rfl
  | cons c rest ih =>
    by_cases same : c = quote
    · subst same; simpa [double, undouble] using ih
    · have plain : double quote (c :: rest) = c :: double quote rest := by simp [double, same]
      rw [plain]
      cases tail : double quote rest with
      | nil => rw [tail] at ih; rw [undouble, ← ih]; rfl
      | cons d more => rw [undouble, if_neg (by simp [same]), ← tail, ih]

/-- `inner` between two `quote` characters. -/
def enclose (quote : Char) (inner : List Char) : List Char := quote :: inner ++ [quote]

/-- The text between a first and a last `quote`, which must be two characters. -/
def enclosed? (quote : Char) : List Char → Option (List Char)
  | [] => none
  | c :: rest => if c = quote ∧ rest.getLast? = some quote then some rest.dropLast else none

/-- Takes off one pair of surrounding quotes of one kind. -/
def stripQuotes (text : List Char) : List Char :=
  ([singleQuote, doubleQuote, backtick].findSome? (enclosed? · text)).getD text

end QueryFacts.Text

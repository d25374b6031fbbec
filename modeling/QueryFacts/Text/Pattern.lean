import QueryFacts.Text.Blank

/-! Patterns that match at the start of a text and never give back what they took: each
part takes all it can, and what follows a part is nothing that the part could take. -/

namespace QueryFacts.Text

/-- Splits a text after the match at its start. -/
abbrev Pattern := List Char → Option (List Char × List Char)

namespace Pattern

def word (letters : List Char) : Pattern := fun text =>
  if letters.isPrefixOf text then some (letters, text.drop letters.length) else none

/-- The lower-case letter `letter` or a character with the same simple case folding. -/
def sameLetter (letter c : Char) : Bool :=
  c.toLower == letter || (letter == 's' && c == '\u017F') || (letter == 'k' && c == '\u212A')

/-- A word in any case, given in lower case; a letter that is no letter stands for itself. -/
def anyCase : List Char → Pattern
  | [], text => some ([], text)
  | _ :: _, [] => none
  | letter :: letters, c :: text =>
    if sameLetter letter c then (anyCase letters text).map fun (taken, rest) => (c :: taken, rest) else none

def many (accepts : Char → Bool) : Pattern := fun text => some (text.takeWhile accepts, text.dropWhile accepts)

def one (accepts : Char → Bool) : Pattern
  | [] => none
  | c :: rest => if accepts c then some ([c], rest) else none

/-- `first` and then `second`. -/
def next (first second : Pattern) : Pattern := fun text => do
  let (taken, rest) ← first text
  let (more, rest) ← second rest
  some (taken ++ more, rest)

def some1 (accepts : Char → Bool) : Pattern := (one accepts).next (many accepts)

def optional (pattern : Pattern) : Pattern := fun text => (pattern text).getD ([], text)

/-- The first of two patterns that matches. -/
def either (first second : Pattern) : Pattern := fun text => first text <|> second text

/-- One or more matches that follow each other. -/
def repeated (pattern : Pattern) (text : List Char) : Option (List Char × List Char) :=
  match pattern text with
  | none => none
  | some (taken, rest) =>
    if rest.length < text.length then
      match repeated pattern rest with
      | some (more, rest) => some (taken ++ more, rest)
      | none => some (taken, rest)
    else some (taken, rest)
termination_by text.length

private def replaceFrom (pattern : Pattern) (change : List Char → List Char) : Nat → List Char → List Char
  | _, [] => []
  | skip + 1, _ :: rest => replaceFrom pattern change skip rest
  | 0, c :: rest => match pattern (c :: rest) with
    | some (taken, _) => change taken ++ replaceFrom pattern change (taken.length - 1) rest
    | none => c :: replaceFrom pattern change 0 rest

/-- Changes every match, left to right. A pattern used here takes a character at least. -/
def replace (pattern : Pattern) (change : List Char → List Char) (text : List Char) : List Char :=
  replaceFrom pattern change 0 text

private def findFrom (pattern : Pattern) : Nat → List Char → List (List Char)
  | _, [] => []
  | skip + 1, _ :: rest => findFrom pattern skip rest
  | 0, c :: rest => match pattern (c :: rest) with
    | some (taken, _) => taken :: findFrom pattern (taken.length - 1) rest
    | none => findFrom pattern 0 rest

/-- Every match, left to right. A pattern used here takes a character at least. -/
def findAll (pattern : Pattern) (text : List Char) : List (List Char) := findFrom pattern 0 text

/-- A match is what the text begins with, and it is not empty. -/
structure Proper (pattern : Pattern) : Prop where
  splits : ∀ {text taken rest}, pattern text = some (taken, rest) → taken ++ rest = text
  takes : ∀ {text taken rest}, pattern text = some (taken, rest) → taken ≠ []

section
variable {pattern : Pattern} {change : List Char → List Char} {text taken rest : List Char} {c : Char}

private theorem replaceFrom_skip (skip : Nat) (text : List Char) :
    replaceFrom pattern change skip text = replace pattern change (text.drop skip) := by
  induction text generalizing skip with
  | nil => cases skip <;> rfl
  | cons c rest ih => cases skip with
    | zero => rfl
    | succ skip => exact ih skip

private theorem findFrom_skip (skip : Nat) (text : List Char) :
    findFrom pattern skip text = findAll pattern (text.drop skip) := by
  induction text generalizing skip with
  | nil => cases skip <;> rfl
  | cons c rest ih => cases skip with
    | zero => rfl
    | succ skip => exact ih skip

private theorem drop_match (split : taken ++ rest = c :: text) (more : taken ≠ []) :
    text.drop (taken.length - 1) = rest := by
  cases taken with
  | nil => exact absurd rfl more
  | cons first others =>
    simp only [List.cons_append, List.cons.injEq] at split
    rw [← split.2]
    simp

@[simp] theorem replace_nil : replace pattern change [] = [] := rfl

@[simp] theorem findAll_nil : findAll pattern [] = [] := rfl

theorem replace_none (fails : pattern (c :: text) = none) :
    replace pattern change (c :: text) = c :: replace pattern change text := by
  simp only [replace, replaceFrom, fails]

theorem findAll_none (fails : pattern (c :: text) = none) : findAll pattern (c :: text) = findAll pattern text := by
  simp only [findAll, findFrom, fails]

theorem replace_some (proper : Proper pattern) (found : pattern text = some (taken, rest)) :
    replace pattern change text = change taken ++ replace pattern change rest := by
  have split := proper.splits found
  have more := proper.takes found
  cases text with
  | nil => exact absurd (List.append_eq_nil_iff.mp split).1 more
  | cons c text =>
    rw [← drop_match split more, ← replaceFrom_skip]
    simp only [replace, replaceFrom, found]

theorem findAll_some (proper : Proper pattern) (found : pattern text = some (taken, rest)) :
    findAll pattern text = taken :: findAll pattern rest := by
  have split := proper.splits found
  have more := proper.takes found
  cases text with
  | nil => exact absurd (List.append_eq_nil_iff.mp split).1 more
  | cons c text =>
    rw [← drop_match split more, ← findFrom_skip]
    simp only [findAll, findFrom, found]

end

end Pattern

end QueryFacts.Text

import QueryFacts.Text.Quote

/-! The segments of a text: quoted runs, comments, and the code between them. Quoted
runs and block comments that are never closed reach to the end of the text. -/

namespace QueryFacts
open Text

inductive SegmentKind where
  | code
  | stringLiteral
  | doubleQuoted
  | backticked
  | blockComment
  /-- From `--` or `#` through the end of the line. -/
  | lineComment
  deriving DecidableEq

namespace SegmentKind

def isComment : SegmentKind → Bool
  | blockComment | lineComment => true
  | _ => false

/-- The kind of the quoted run or comment that starts with `first`. -/
def opening? (first : Char) (rest : List Char) : Option SegmentKind :=
  if first = singleQuote then some stringLiteral
  else if first = doubleQuote then some doubleQuoted
  else if first = backtick then some backticked
  else if first = '#' then some lineComment
  else if first = '/' ∧ rest.head? = some '*' then some blockComment
  else if first = '-' ∧ rest.head? = some '-' then some lineComment
  else none

end SegmentKind

structure Segment where
  kind : SegmentKind
  text : List Char
  deriving DecidableEq

namespace Segment

private def cons (c : Char) (split : List Char × List Char) : List Char × List Char := (c :: split.1, split.2)

/-- Splits after the quote that ends a run. Doubled quotes and, except between
backticks, characters after a backslash stay inside. -/
def throughQuote (quote : Char) : List Char → List Char × List Char
  | [] => ([], [])
  | [c] => ([c], [])
  | c :: d :: rest =>
    if c = '\\' ∧ quote ≠ backtick then cons c (cons d (throughQuote quote rest))
    else if c = quote then
      if d = quote then cons c (cons d (throughQuote quote rest)) else ([c], d :: rest)
    else cons c (throughQuote quote (d :: rest))

/-- Splits after the first `*/`. -/
def throughBlockEnd : List Char → List Char × List Char
  | [] => ([], [])
  | [c] => ([c], [])
  | c :: d :: rest =>
    if c = '*' ∧ d = '/' then ([c, d], rest) else cons c (throughBlockEnd (d :: rest))

/-- Splits after the first newline. -/
def throughNewline : List Char → List Char × List Char
  | [] => ([], [])
  | c :: rest => if c = '\n' then ([c], rest) else cons c (throughNewline rest)

/-- Splits before the first quoted run or comment. -/
def throughCode : List Char → List Char × List Char
  | [] => ([], [])
  | c :: rest => if (SegmentKind.opening? c rest).isSome then ([], c :: rest) else cons c (throughCode rest)

/-- Splits at the end of a segment of the given kind, after its first character. -/
def split : SegmentKind → List Char → List Char × List Char
  | .code, rest => throughCode rest
  | .stringLiteral, rest => throughQuote singleQuote rest
  | .doubleQuoted, rest => throughQuote doubleQuote rest
  | .backticked, rest => throughQuote backtick rest
  | .blockComment, [] => ([], [])
  | .blockComment, star :: rest => cons star (throughBlockEnd rest)
  | .lineComment, rest => throughNewline rest

theorem throughQuote_append (quote : Char) (text : List Char) :
    (throughQuote quote text).1 ++ (throughQuote quote text).2 = text := by
  fun_induction throughQuote quote text <;> simp_all [cons]

theorem throughBlockEnd_append (text : List Char) : (throughBlockEnd text).1 ++ (throughBlockEnd text).2 = text := by
  fun_induction throughBlockEnd text <;> simp_all [cons]

theorem throughNewline_append (text : List Char) : (throughNewline text).1 ++ (throughNewline text).2 = text := by
  fun_induction throughNewline text <;> simp_all [cons]

theorem throughCode_append (text : List Char) : (throughCode text).1 ++ (throughCode text).2 = text := by
  fun_induction throughCode text <;> simp_all [cons]

/-- Splitting loses nothing. -/
theorem split_append (kind : SegmentKind) (text : List Char) : (split kind text).1 ++ (split kind text).2 = text := by
  unfold split
  split <;> simp [throughQuote_append, throughNewline_append, throughCode_append, throughBlockEnd_append, cons]

private theorem length_split_le (kind : SegmentKind) (text : List Char) : (split kind text).2.length ≤ text.length := by
  have whole := congrArg List.length (split_append kind text)
  simp only [List.length_append] at whole
  omega

def ofText : List Char → List Segment
  | [] => []
  | c :: rest =>
    let kind := (SegmentKind.opening? c rest).getD .code
    ⟨kind, c :: (split kind rest).1⟩ :: ofText (split kind rest).2
termination_by text => text.length
decreasing_by exact Nat.lt_succ_of_le (length_split_le _ _)

/-- The segments of a text cover it. -/
theorem flatMap_text_ofText (text : List Char) : (ofText text).flatMap (·.text) = text := by
  fun_induction ofText text with
  | case1 => rfl
  | case2 c rest kind ih => simp [ih, split_append]

end Segment

end QueryFacts

import QueryFacts.Normalize
import QueryFacts.Proofs.ItemText

/-! What normalization does to the weight of a text. A line break in code and the quotes
of an identifier are lost; only a double-quoted run that is never closed keeps its weight,
and then it is the end of the text. -/

namespace QueryFacts.Proofs.NormalizedText
open Text Lexer

/-- The text ends in a double-quoted run that is not closed, and becomes a quoted name there. -/
def EndsInQuote (text result : List Char) : Prop :=
  ∃ front rest, text = front ++ doubleQuote :: rest ∧
    result = front ++ enclose backtick (double backtick (doubleQuote :: rest))

def LighterOrKept (text result : List Char) : Prop :=
  weightOf result < weightOf text ∨ result = text ∨ EndsInQuote text result

theorem weightOf_quoted (name : List Char) : weightOf (enclose backtick (double backtick name)) = weightOf name := by
  have light : weight backtick = 0 := by decide
  simp only [enclose, List.cons_append, weightOf_cons, weightOf_append, weightOf_nil, weightOf_double_backtick, light]
  omega

theorem LighterOrKept.weight_le {text result : List Char} (shape : LighterOrKept text result) :
    weightOf result ≤ weightOf text := by
  rcases shape with lighter | rfl | ⟨front, rest, rfl, rfl⟩
  · exact Nat.le_of_lt lighter
  · exact Nat.le_refl _
  · apply Nat.le_of_eq
    rw [weightOf_append, weightOf_append, weightOf_quoted]

theorem LighterOrKept.append {first result text rest : List Char}
    (begins : weightOf result < weightOf first ∨ result = first) (shape : LighterOrKept text rest) :
    LighterOrKept (first ++ text) (result ++ rest) := by
  have below := shape.weight_le
  rcases begins with lighter | rfl
  · left
    rw [weightOf_append, weightOf_append]
    omega
  · rcases shape with lighter | rfl | ⟨front, quoted, rfl, rfl⟩
    · left
      rw [weightOf_append, weightOf_append]
      omega
    · exact .inr (.inl rfl)
    · exact .inr (.inr ⟨result ++ front, quoted, by simp, by simp⟩)

private theorem code_lighter_or_kept (text : List Char) :
    weightOf (text.map fun c => if c = '\n' ∨ c = '\r' then ' ' else c) < weightOf text ∨
      (text.map fun c => if c = '\n' ∨ c = '\r' then ' ' else c) = text := by
  induction text with
  | nil => exact .inr rfl
  | cons c rest ih =>
    rw [List.map_cons, weightOf_cons, weightOf_cons]
    split
    next ends =>
      have space : weight ' ' = 0 := by decide
      have heavy : weight c = 1 := by rcases ends with rfl | rfl <;> decide
      left
      rcases ih with lighter | same
      · omega
      · rw [same]
        omega
    next =>
      rcases ih with lighter | same
      · left
        omega
      · exact .inr (congrArg (c :: ·) same)

private theorem weightOf_writeIdentifier (name : List Char) : weightOf (writeIdentifier name) = weightOf name := by
  unfold writeIdentifier
  split
  · rfl
  · exact weightOf_quoted name

private theorem throughQuote_getLast? {quote : Char} {text : List Char}
    (more : (Segment.throughQuote quote text).2 ≠ []) :
    (Segment.throughQuote quote text).1.getLast? = some quote := by
  fun_induction Segment.throughQuote quote text with
  | case1 => exact absurd rfl more
  | case2 => exact absurd rfl more
  | case3 c d rest escaped ih =>
    change (c :: d :: (Segment.throughQuote quote rest).1).getLast? = some quote
    rw [List.getLast?_cons, List.getLast?_cons, ih more]
    rfl
  | case4 rest bare ih =>
    change (quote :: quote :: (Segment.throughQuote quote rest).1).getLast? = some quote
    rw [List.getLast?_cons, List.getLast?_cons, ih more]
    rfl
  | case5 => rfl
  | case6 c d rest bare different ih =>
    change (c :: (Segment.throughQuote quote (d :: rest)).1).getLast? = some quote
    rw [List.getLast?_cons, ih more]
    rfl

private theorem weightOf_dropLast {text : List Char} {quote : Char} (last : text.getLast? = some quote) :
    weightOf text = weightOf text.dropLast + weight quote := by
  obtain ⟨front, rfl⟩ := List.getLast?_eq_some_iff.mp last
  simp

private theorem opening?_doubleQuoted {c : Char} {rest : List Char}
    (opens : (SegmentKind.opening? c rest).getD .code = .doubleQuoted) : c = doubleQuote := by
  unfold SegmentKind.opening? at opens
  repeat' split at opens
  all_goals first | assumption | cases opens

/-- A segment becomes lighter or stays as it is, or it is a quote that is never closed. -/
private theorem segment_lighter_or_kept {c : Char} {rest : List Char} {kind : SegmentKind}
    (opens : (SegmentKind.opening? c rest).getD .code = kind) :
    (weightOf (Segment.normalize ⟨kind, c :: (Segment.split kind rest).1⟩) <
      weightOf (c :: (Segment.split kind rest).1) ∨
        Segment.normalize ⟨kind, c :: (Segment.split kind rest).1⟩ = c :: (Segment.split kind rest).1) ∨
      c = doubleQuote ∧ (Segment.split kind rest).2 = [] ∧
        Segment.normalize ⟨kind, c :: (Segment.split kind rest).1⟩ =
          enclose backtick (double backtick (c :: (Segment.split kind rest).1)) := by
  cases kind with
  | code => exact .inl (code_lighter_or_kept _)
  | doubleQuoted =>
    obtain rfl := opening?_doubleQuoted opens
    change (weightOf (writeIdentifier _) < _ ∨ writeIdentifier _ = _) ∨ _ ∧ _ ∧ writeIdentifier _ = _
    simp only [enclosed?, Segment.split, true_and]
    by_cases closed : (Segment.throughQuote doubleQuote rest).1.getLast? = some doubleQuote
    · rw [if_pos closed, Option.getD_some, weightOf_writeIdentifier, weightOf_cons, weightOf_dropLast closed]
      have heavy : weight doubleQuote = 1 := by decide
      exact .inl (.inl (by omega))
    · rw [if_neg closed, Option.getD_none]
      refine .inr ⟨?_, ?_⟩
      · apply Classical.byContradiction
        intro more
        exact closed (throughQuote_getLast? more)
      · have special (run : List Char) : isPlainIdentifier (doubleQuote :: run) = false := rfl
        rw [writeIdentifier, special, if_neg Bool.false_ne_true]
  | stringLiteral | backticked | blockComment | lineComment => exact .inl (.inr rfl)

theorem normalize_nil : normalize [] = [] := by
  rw [normalize, Segment.ofText]
  rfl

theorem normalize_cons (c : Char) (rest : List Char) :
    normalize (c :: rest) =
      Segment.normalize ⟨(SegmentKind.opening? c rest).getD .code,
        c :: (Segment.split ((SegmentKind.opening? c rest).getD .code) rest).1⟩ ++
      normalize (Segment.split ((SegmentKind.opening? c rest).getD .code) rest).2 := by
  rw [normalize, Segment.ofText, List.flatMap_cons, normalize]

/-- A character of code stays as it is, whatever comes after it. -/
theorem normalize_code {c : Char} {rest : List Char} (code : SegmentKind.opening? c rest = none)
    (line : c ≠ '\n' ∧ c ≠ '\r') : normalize (c :: rest) = c :: normalize rest := by
  have same : (if c = '\n' ∨ c = '\r' then ' ' else c) = c := if_neg (not_or.mpr line)
  rw [normalize_cons, code]
  cases rest with
  | nil => simp [Segment.split, Segment.throughCode, Segment.normalize, normalize_nil, same]
  | cons d more =>
    cases opens : SegmentKind.opening? d more with
    | some kind => simp [Segment.split, Segment.throughCode, Segment.normalize, opens, same]
    | none =>
      have later := normalize_cons d more
      rw [opens] at later
      simp only [later, Segment.split, Segment.throughCode, opens, Segment.normalize, Option.getD_none,
        List.map_cons, same, Option.isSome_none, Bool.false_eq_true, if_false]
      rfl

/-- A character that is code wherever it stands. -/
def isCode (c : Char) : Bool :=
  !(c == singleQuote || c == doubleQuote || c == backtick || c == '#' || c == '/' || c == '-' || c == '\n' || c == '\r')

theorem normalize_isCode {c : Char} (code : isCode c = true) (rest : List Char) :
    normalize (c :: rest) = c :: normalize rest := by
  simp only [isCode, Bool.not_eq_true', Bool.or_eq_false_iff, beq_eq_false_iff_ne] at code
  obtain ⟨⟨⟨⟨⟨⟨⟨noSingle, noDouble⟩, noTick⟩, noHash⟩, noSlash⟩, noDash⟩, noNewline⟩, noReturn⟩ := code
  exact normalize_code (by simp [SegmentKind.opening?, *]) ⟨noNewline, noReturn⟩

theorem normalize_append {text : List Char} (code : ∀ c ∈ text, isCode c = true) (after : List Char) :
    normalize (text ++ after) = text ++ normalize after := by
  induction text with
  | nil => rfl
  | cons c rest ih =>
    rw [List.cons_append, normalize_isCode (code c List.mem_cons_self),
      ih fun d member => code d (List.mem_cons_of_mem _ member), List.cons_append]

theorem normalize_lighter_or_kept (text : List Char) : LighterOrKept text (normalize text) := by
  fun_induction Segment.ofText text with
  | case1 => exact .inr (.inl normalize_nil)
  | case2 c rest kind ih =>
    have whole : c :: rest = (c :: (Segment.split kind rest).1) ++ (Segment.split kind rest).2 := by
      rw [List.cons_append, Segment.split_append]
    have result := normalize_cons c rest
    change _ = Segment.normalize ⟨kind, _⟩ ++ _ at result
    rcases @segment_lighter_or_kept c rest kind rfl with kept | ⟨quote, last, quoted⟩
    · rw [result, whole]
      exact ih.append kept
    · rw [result, last, quoted, normalize_nil, List.append_nil]
      rw [last, List.append_nil] at whole
      rw [← whole, quote]
      exact .inr (.inr ⟨[], rest, rfl, rfl⟩)

end QueryFacts.Proofs.NormalizedText

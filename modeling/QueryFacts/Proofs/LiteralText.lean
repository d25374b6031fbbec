import QueryFacts.Proofs.NormalizedText

/-! Numbers and strings as they are written in a query. Each is read as one literal in front
of a mark or a space, and normalization leaves it as it is. -/

namespace QueryFacts
open Text Lexer

/-- The spelling of a number: digits, perhaps with a point among them, and perhaps an exponent. -/
def isNumeral (text : List Char) : Bool :=
  text.head?.any (·.isDigit) && mantissa text ++ exponent (text.drop (mantissa text).length) == text

/-- A string between its quotes as a query has it, with quotes and backslashes doubled. -/
def escaped (content : List Char) : List Char := double '\\' (double singleQuote content)

/-- A number ends before these. -/
def endsNumber (c : Char) : Bool := c == ' ' || c == ',' || c == '(' || c == ')'

end QueryFacts

namespace QueryFacts.Proofs.LiteralText
open Text Lexer

section Numbers

private theorem ne_of_digit {c d : Char} (digit : c.isDigit = true) (other : d.isDigit = false) : c ≠ d := by
  rintro rfl
  rw [digit] at other
  cases other

variable {text after : List Char}

theorem takeWhile_ended {holds : Char → Bool} (text : List Char) (ends : ∀ c ∈ after.head?, holds c = false) :
    (text ++ after).takeWhile holds = text.takeWhile holds := by
  have none : after.takeWhile holds = [] := by
    cases after with
    | nil => rfl
    | cons c after => exact List.takeWhile_cons_of_neg (by simp [ends c rfl])
  rw [List.takeWhile_append, none]
  split
  next whole =>
    have same := (List.takeWhile_sublist (p := holds) (l := text)).eq_of_length whole
    rw [List.append_nil, same]
  next => rfl

variable (ends : ∀ c ∈ after.head?, endsNumber c = true)
include ends

private theorem not_digit : ∀ c ∈ after.head?, c.isDigit = false := by
  intro c first
  have mark := ends c first
  simp only [endsNumber, Bool.or_eq_true, beq_iff_eq] at mark
  rcases mark with ((rfl | rfl) | rfl) | rfl <;> rfl

private theorem head?_ne {c : Char} (other : endsNumber c = false) : after.head? ≠ some c := by
  intro same
  rw [ends c same] at other
  cases other

theorem mantissa_ended (text : List Char) : mantissa (text ++ after) = mantissa text := by
  have digits := takeWhile_ended text (not_digit ends)
  have length : (text.takeWhile (·.isDigit)).length ≤ text.length := (List.takeWhile_sublist _).length_le
  unfold mantissa
  simp only [digits, List.drop_append_of_le_length length]
  cases text.drop (text.takeWhile (·.isDigit)).length with
  | nil =>
    rw [List.nil_append]
    cases after with
    | nil => rfl
    | cons c after =>
      have noPoint : c ≠ '.' := fun same => head?_ne ends (show endsNumber '.' = false by decide) (congrArg some same)
      split
      next found => exact absurd (List.cons.inj found).1 noPoint
      next => rfl
  | cons c rest =>
    by_cases point : c = '.'
    · subst point
      simp only [List.cons_append, takeWhile_ended rest (not_digit ends)]
    · simp [point]

theorem exponent_ended (text : List Char) : exponent (text ++ after) = exponent text := by
  cases text with
  | nil =>
    cases after with
    | nil => rfl
    | cons c after =>
      have lower : c ≠ 'e' := fun same => head?_ne ends (show endsNumber 'e' = false by decide) (congrArg some same)
      have upper : c ≠ 'E' := fun same => head?_ne ends (show endsNumber 'E' = false by decide) (congrArg some same)
      simp [exponent, lower, upper]
  | cons e rest =>
    have sign : ((rest ++ after).take 1).takeWhile (fun c => decide (c = '+' ∨ c = '-')) =
        (rest.take 1).takeWhile (fun c => decide (c = '+' ∨ c = '-')) := by
      cases rest with
      | cons c rest => rfl
      | nil =>
        cases after with
        | nil => rfl
        | cons c after =>
          have noPlus : c ≠ '+' :=
            fun same => head?_ne ends (show endsNumber '+' = false by decide) (congrArg some same)
          have noMinus : c ≠ '-' :=
            fun same => head?_ne ends (show endsNumber '-' = false by decide) (congrArg some same)
          simp [noPlus, noMinus]
    have length : ((rest.take 1).takeWhile (fun c => decide (c = '+' ∨ c = '-'))).length ≤ rest.length :=
      Nat.le_trans (List.takeWhile_sublist _).length_le (List.length_take_le' _ _)
    rw [List.cons_append]
    unfold exponent
    simp only [sign, List.drop_append_of_le_length length, takeWhile_ended _ (not_digit ends)]

private theorem takeWhile_part : after.takeWhile isIdentifierPart = [] := by
  cases after with
  | nil => rfl
  | cons c after =>
    have mark := ends c rfl
    simp only [endsNumber, Bool.or_eq_true, beq_iff_eq] at mark
    refine List.takeWhile_cons_of_neg ?_
    rcases mark with ((rfl | rfl) | rfl) | rfl <;> decide

/-- What is spelled as a number is read as one. -/
theorem number_numeral (numeral : isNumeral text = true) : number (text ++ after) =
    (.lexical (if text.all (·.isDigit) then .integer else .float) text none, after) := by
  simp only [isNumeral, Bool.and_eq_true, beq_iff_eq] at numeral
  obtain ⟨starts, whole⟩ := numeral
  have noPoint : mantissa text ≠ ['.'] := by
    intro point
    rw [point] at whole
    rw [← whole] at starts
    exact absurd starts (show ¬('.'.isDigit = true) by decide)
  have within : (mantissa text).length ≤ text.length := by
    have length := congrArg List.length whole
    rw [List.length_append] at length
    omega
  obtain ⟨power, rest⟩ : ∃ power, text.drop (mantissa text).length = power ∧ exponent power = power := by
    refine ⟨_, rfl, ?_⟩
    have dropped := congrArg (List.drop (mantissa text).length) whole
    rwa [List.drop_left] at dropped
  rw [rest.1, rest.2] at whole
  have later : (text ++ after).drop (mantissa text).length = power ++ after := by
    rw [List.drop_append_of_le_length within, rest.1]
  have word : ¬(power = [] ∧ (power ++ after).takeWhile isIdentifierPart ≠ []) := by
    rintro ⟨rfl, some⟩
    exact some (takeWhile_part ends)
  have noSuffix : after.head? ≠ some 'L' := head?_ne ends (by decide)
  unfold number
  simp only [mantissa_ended ends, later, exponent_ended ends, rest.2, whole, List.drop_left]
  rw [if_neg noPoint, if_neg word, if_neg noSuffix]

theorem numeric_numeral (numeral : isNumeral text = true) : numeric (text ++ after) =
    (.lexical (if text.all (·.isDigit) then .integer else .float) text none, after) := by
  have noHex : ∀ rest, text ++ after ≠ '0' :: 'x' :: rest := by
    intro rest whole
    have spelled := numeral
    simp only [isNumeral, Bool.and_eq_true, beq_iff_eq] at spelled
    cases text with
    | nil => exact absurd spelled.1 (by simp)
    | cons c text =>
      obtain ⟨rfl, same⟩ := List.cons.inj whole
      cases text with
      | nil =>
        exact head?_ne ends (show endsNumber 'x' = false by decide) (congrArg (fun rest => rest.tail.head?) whole)
      | cons d text =>
        obtain rfl : d = 'x' := (List.cons.inj same).1
        have alone : mantissa ('0' :: 'x' :: text) = ['0'] := rfl
        have none : exponent ('x' :: text) = [] := by simp [exponent]
        rw [alone] at spelled
        exact absurd (none ▸ spelled.2 : ['0'] ++ [] = '0' :: 'x' :: text) (by simp)
  rw [numeric, number_numeral ends numeral]
  exact fun rest same => noHex rest same

theorem scan_numeral {c : Char} {part : List Char} (numeral : isNumeral (c :: part) = true) : scan c (part ++ after) =
    .ok (.lexical (if (c :: part).all (·.isDigit) then .integer else .float) (c :: part) none, after) := by
  have digit : c.isDigit = true := by
    simp only [isNumeral, List.head?_cons, Option.any_some, Bool.and_eq_true] at numeral
    exact numeral.1
  have other {d : Char} (noDigit : d.isDigit = false) : c ≠ d := ne_of_digit digit noDigit
  have noGap : isGap c = false := by
    simp [isGap, other (show ' '.isDigit = false by decide), other (show '\t'.isDigit = false by decide),
      other (show '\n'.isDigit = false by decide), other (show '\r'.isDigit = false by decide),
      other (show '\x0B'.isDigit = false by decide), other (show '\x0C'.isDigit = false by decide)]
  have noString : string? c (part ++ after) = none := by
    unfold string?
    simp only [other (show singleQuote.isDigit = false by decide), other (show doubleQuote.isDigit = false by decide),
      other (show backtick.isDigit = false by decide), other (show 'b'.isDigit = false by decide),
      other (show 'B'.isDigit = false by decide), other (show 'n'.isDigit = false by decide),
      other (show 'N'.isDigit = false by decide), other (show 'x'.isDigit = false by decide),
      other (show 'X'.isDigit = false by decide), other (show 'e'.isDigit = false by decide),
      other (show 'E'.isDigit = false by decide), or_self, false_and, if_false]
    split <;> rfl
  rw [← numeric_numeral ends numeral]
  simp [scan, noGap, noString, digit]

end Numbers

section NormalizedNumbers
open NormalizedText

private theorem isCode_of_digit {c : Char} (digit : c.isDigit = true) : isCode c = true := by
  have noSingle := ne_of_digit digit (show singleQuote.isDigit = false by decide)
  have noDouble := ne_of_digit digit (show doubleQuote.isDigit = false by decide)
  have noTick := ne_of_digit digit (show backtick.isDigit = false by decide)
  have noHash := ne_of_digit digit (show '#'.isDigit = false by decide)
  have noSlash := ne_of_digit digit (show '/'.isDigit = false by decide)
  have noDash := ne_of_digit digit (show '-'.isDigit = false by decide)
  have noNewline := ne_of_digit digit (show '\n'.isDigit = false by decide)
  have noReturn := ne_of_digit digit (show '\r'.isDigit = false by decide)
  simp [isCode, *]

theorem isDigit_of_mem_takeWhile {text : List Char} : ∀ c ∈ text.takeWhile (·.isDigit), c.isDigit = true :=
  List.all_eq_true.mp List.all_takeWhile

theorem digit_or_point_of_mem_mantissa {text : List Char} : ∀ c ∈ mantissa text, c.isDigit = true ∨ c = '.' := by
  intro c member
  unfold mantissa at member
  simp only at member
  split at member
  · rcases List.mem_append.mp member with before | later
    · exact .inl (isDigit_of_mem_takeWhile c before)
    · exact (List.mem_cons.mp later).symm.imp_left (isDigit_of_mem_takeWhile c)
  · exact .inl (isDigit_of_mem_takeWhile c member)

private theorem isCode_of_mem_mantissa {text : List Char} : ∀ c ∈ mantissa text, isCode c = true := by
  intro c member
  rcases digit_or_point_of_mem_mantissa c member with digit | rfl
  · exact isCode_of_digit digit
  · decide

/-- An exponent that there is has its letter, perhaps a sign, and digits. -/
theorem exponent_cases (text : List Char) :
    exponent text = [] ∨ ∃ e sign digits, exponent text = e :: (sign ++ digits) ∧
    (e = 'e' ∨ e = 'E') ∧ (sign = [] ∨ sign = ['+'] ∨ sign = ['-']) ∧ digits ≠ [] ∧ ∀ c ∈ digits, c.isDigit = true := by
  cases text with
  | nil => exact .inl rfl
  | cons e rest =>
    unfold exponent
    dsimp only
    split
    next written =>
      obtain ⟨letter, some⟩ := written
      refine .inr ⟨e, _, _, rfl, letter, ?_, some, isDigit_of_mem_takeWhile⟩
      cases rest with
      | nil => exact .inl rfl
      | cons c rest =>
        by_cases plus : c = '+'
        · simp [plus]
        · by_cases minus : c = '-' <;> simp [plus, minus]
    next => exact .inl rfl

private theorem normalize_exponent (text after : List Char) :
    normalize (exponent text ++ after) = exponent text ++ normalize after := by
  rcases exponent_cases text with none | ⟨e, sign, digits, written, letter, signed, some, all⟩
  · rw [none]
    rfl
  · have first : isCode e = true := by rcases letter with rfl | rfl <;> decide
    have later := normalize_append (fun c member => isCode_of_digit (all c member)) after
    rw [written, List.cons_append, normalize_isCode first, List.append_assoc, List.cons_append,
      List.append_assoc, List.cons.injEq]
    refine ⟨rfl, ?_⟩
    rcases signed with rfl | rfl | rfl
    · exact later
    · rw [List.singleton_append, normalize_isCode (by decide), later, List.singleton_append]
    · obtain ⟨d, more, rfl⟩ := List.exists_cons_of_ne_nil some
      have noDash := ne_of_digit (all d List.mem_cons_self) (show '-'.isDigit = false by decide)
      have code : SegmentKind.opening? '-' (d :: more ++ after) = none := by
        simp [SegmentKind.opening?, noDash, singleQuote, doubleQuote, backtick]
      rw [List.singleton_append, normalize_code code (by decide), later, List.singleton_append]

theorem normalize_numeral {text : List Char} (numeral : isNumeral text = true) (after : List Char) :
    normalize (text ++ after) = text ++ normalize after := by
  simp only [isNumeral, Bool.and_eq_true, beq_iff_eq] at numeral
  rw [← numeral.2, List.append_assoc, normalize_append isCode_of_mem_mantissa, normalize_exponent, List.append_assoc]

end NormalizedNumbers

section Strings

theorem escaped_quote (content : List Char) :
    escaped (singleQuote :: content) = singleQuote :: singleQuote :: escaped content := rfl

theorem escaped_backslash (content : List Char) : escaped ('\\' :: content) = '\\' :: '\\' :: escaped content := rfl

theorem escaped_other {c : Char} (noQuote : c ≠ singleQuote) (noBackslash : c ≠ '\\') (content : List Char) :
    escaped (c :: content) = c :: escaped content := by
  simp [escaped, double, noQuote, noBackslash]

/-- A case for each way to write a character. -/
theorem escaped_cases {holds : List Char → Prop} (nil : holds [])
    (quote : ∀ content, holds content → holds (singleQuote :: content))
    (backslash : ∀ content, holds content → holds ('\\' :: content))
    (other : ∀ c content, c ≠ singleQuote → c ≠ '\\' → holds content → holds (c :: content)) (content : List Char) :
    holds content := by
  induction content with
  | nil => exact nil
  | cons c content ih =>
    by_cases isQuote : c = singleQuote
    · exact isQuote ▸ quote content ih
    · by_cases isBackslash : c = '\\'
      · exact isBackslash ▸ backslash content ih
      · exact other c content isQuote isBackslash ih

variable {after : List Char} (ends : after.head? ≠ some singleQuote)
include ends

theorem quotedBody_escaped (content : List Char) :
    quotedBody singleQuote true (escaped content ++ singleQuote :: after) = some (content, after) := by
  induction content using escaped_cases with
  | nil =>
    cases after with
    | nil => rfl
    | cons d after =>
      have different : d ≠ singleQuote := fun same => ends (congrArg some same)
      simp [escaped, double, quotedBody, different]
  | quote content ih =>
    rw [escaped_quote, List.cons_append, List.cons_append, quotedBody, if_pos rfl, if_pos rfl, ih]
    rfl
  | backslash content ih =>
    rw [escaped_backslash, List.cons_append, List.cons_append, quotedBody, if_neg (by decide), if_pos (by decide), ih]
    rfl
  | other c content noQuote noBackslash ih =>
    rw [escaped_other noQuote noBackslash, List.cons_append]
    cases rest : escaped content ++ singleQuote :: after with
    | nil => exact absurd rest (by simp)
    | cons d more =>
      rw [rest] at ih
      rw [quotedBody, if_neg noQuote, if_neg (by simp [noBackslash]), ih]
      rfl

theorem throughQuote_escaped (content : List Char) :
    Segment.throughQuote singleQuote (escaped content ++ singleQuote :: after) =
    (escaped content ++ [singleQuote], after) := by
  induction content using escaped_cases with
  | nil =>
    cases after with
    | nil => rfl
    | cons d after =>
      have different : d ≠ singleQuote := fun same => ends (congrArg some same)
      have quote : singleQuote ≠ '\\' := by decide
      simp [escaped, double, Segment.throughQuote, different, quote]
  | quote content ih =>
    rw [escaped_quote, List.cons_append, List.cons_append, Segment.throughQuote, if_neg (by decide),
      if_pos rfl, if_pos rfl, ih]
    rfl
  | backslash content ih =>
    rw [escaped_backslash, List.cons_append, List.cons_append, Segment.throughQuote, if_pos (by decide), ih]
    rfl
  | other c content noQuote noBackslash ih =>
    rw [escaped_other noQuote noBackslash, List.cons_append]
    cases rest : escaped content ++ singleQuote :: after with
    | nil => exact absurd rest (by simp)
    | cons d more =>
      rw [rest] at ih
      rw [Segment.throughQuote, if_neg (by simp [noBackslash]), if_neg noQuote, ih]
      rfl

/-- A string is read as its content. -/
theorem scan_escaped (content : List Char) : scan singleQuote (escaped content ++ singleQuote :: after) =
    .ok (literal (enclose singleQuote (double singleQuote content)), after) := by
  have noGap : isGap singleQuote = false := by decide
  simp only [scan, noGap, string?, quotedBody_escaped ends, quotedItem, if_true, Bool.false_eq_true, if_false]

theorem normalize_escaped (content : List Char) : normalize (enclose singleQuote (escaped content) ++ after) =
    enclose singleQuote (escaped content) ++ normalize after := by
  have opens : SegmentKind.opening? singleQuote (escaped content ++ singleQuote :: after) = some .stringLiteral := by
    simp [SegmentKind.opening?]
  have whole : enclose singleQuote (escaped content) ++ after =
      singleQuote :: (escaped content ++ singleQuote :: after) := by simp [enclose]
  rw [whole, NormalizedText.normalize_cons, opens, Option.getD_some, Segment.split, throughQuote_escaped ends]
  simp [Segment.normalize, enclose]

end Strings

end QueryFacts.Proofs.LiteralText

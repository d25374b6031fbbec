import QueryFacts.Proofs.Upserts

/-! The values of literals: the number that a numeral writes, the content of a string, and the
words as they are. In a row after VALUES every literal is read as its value. -/

namespace QueryFacts
open Text

/-- The integer that digits write after a sign. -/
def Literal.whole (negative : Bool) (digits : String) : Int :=
  if negative then -(Decimal.natOf digits.toList : Int) else Decimal.natOf digits.toList

/-- An integer if it fits, otherwise the nearest number; the text that a string or a word stands for. -/
def Literal.value : Literal → Value
  | number negative digits =>
    if digits.toList.all (·.isDigit) ∧ Int64.minValue.toInt ≤ whole negative digits ∧
        whole negative digits ≤ Int64.maxValue.toInt then
      .integer (whole negative digits)
    else ((Decimal.unsignedOf? negative digits.toList).map fun number =>
      Value.float (.ofDecimal number)).getD (.text digits)
  | string content => .text content
  | null => .text "NULL"
  | truth holds => .text (if holds then "TRUE" else "FALSE")

/-- In a parenthesis, with VALUES as the last keyword that counts. -/
structure Context.InRow (context : Context) : Prop where
  clause : context.clause = some "VALUES"
  enclosed : context.opened ≠ []

/-- An item of a list begins after these lexemes, which come nearest first. -/
abbrev Lexeme.BeginsItem (before : List Lexeme) : Prop :=
  (before.head?.any (·.isPunctuation ",") || before.head?.any (·.isPunctuation "(")) = true

/-- An item of a list ends before these lexemes. -/
abbrev Lexeme.EndsItem (after : List Lexeme) : Prop :=
  (after.head?.any (·.isPunctuation ",") || after.head?.any (·.isPunctuation ")")) = true

end QueryFacts

namespace QueryFacts.Proofs.LiteralValues
open Text Lexer Lexeme NestingRun PlainText SelectList ColumnListStatement Clauses Spots ValueSpots Phrases
open PhraseTables Upserts

section Numbers

variable {text : List Char}

private theorem drop_takeWhile (holds : Char → Bool) (text : List Char) :
    text.drop (text.takeWhile holds).length = text.dropWhile holds := by
  have whole := congrArg (List.drop (text.takeWhile holds).length) (@List.takeWhile_append_dropWhile _ holds text)
  rw [List.drop_left] at whole
  exact whole.symm

theorem natOf?_eq_some (more : text ≠ []) (digits : text.all (·.isDigit) = true) :
    Decimal.natOf? text = some (Decimal.natOf text) :=
  if_pos ⟨more, digits⟩

/-- Digits after at most one sign write an exponent. -/
private theorem exists_exponent {sign : List Char} (signed : sign = [] ∨ sign = ['+'] ∨ sign = ['-']) (more : text ≠ [])
    (digits : text.all (·.isDigit) = true) : ∃ power, Decimal.exponentOf? (sign ++ text) = some power := by
  have number := natOf?_eq_some more digits
  rcases signed with rfl | rfl | rfl
  · obtain ⟨c, rest, rfl⟩ := List.exists_cons_of_ne_nil more
    have digit : c.isDigit = true := List.all_eq_true.mp digits c List.mem_cons_self
    rw [List.nil_append]
    unfold Decimal.exponentOf?
    split
    next same =>
      obtain rfl := (List.cons.inj same).1
      cases digit
    next same =>
      obtain rfl := (List.cons.inj same).1
      cases digit
    next => exact ⟨(Decimal.natOf (c :: rest) : Int), by rw [number]; rfl⟩
  · exact ⟨(Decimal.natOf text : Int), by rw [List.singleton_append, Decimal.exponentOf?, number]; rfl⟩
  · exact ⟨-(Decimal.natOf text : Int), by rw [List.singleton_append, Decimal.exponentOf?, number]; rfl⟩

/-- What is an exponent as a whole is read as a power. -/
private theorem exists_power {c : Char} (whole : exponent (c :: text) = c :: text) :
    (c = 'e' ∨ c = 'E') ∧ ∃ power, Decimal.exponentOf? text = some power := by
  let sign := (text.take 1).takeWhile fun c => decide (c = '+' ∨ c = '-')
  let digits := (text.drop sign.length).takeWhile (·.isDigit)
  have signed : sign = [] ∨ sign = ['+'] ∨ sign = ['-'] := by
    cases text with
    | nil => exact .inl rfl
    | cons first rest =>
      by_cases mark : first = '+' ∨ first = '-'
      · refine .inr ?_
        rcases mark with rfl | rfl
        · exact .inl rfl
        · exact .inr rfl
      · exact .inl (by simp [sign, mark])
  have unfolded : (if (c = 'e' ∨ c = 'E') ∧ digits ≠ [] then c :: sign ++ digits else []) = c :: text := whole
  by_cases known : (c = 'e' ∨ c = 'E') ∧ digits ≠ []
  · rw [if_pos known] at unfolded
    obtain ⟨-, split⟩ := List.cons.inj unfolded
    exact ⟨known.1, split ▸ exists_exponent signed known.2 List.all_takeWhile⟩
  · rw [if_neg known] at unfolded
    cases unfolded

/-- What the mantissa leaves over comes after the digits, and after more digits if a point follows. -/
private theorem drop_mantissa (text : List Char) : text.drop (mantissa text).length =
    if (text.dropWhile (·.isDigit)).head? = some '.' then ((text.dropWhile (·.isDigit)).drop 1).dropWhile (·.isDigit)
    else text.dropWhile (·.isDigit) := by
  have left := drop_takeWhile (·.isDigit) text
  unfold mantissa
  simp only [left]
  generalize text.takeWhile (·.isDigit) = digits at left ⊢
  generalize text.dropWhile (·.isDigit) = after at left ⊢
  split
  next rest =>
    have length : (digits ++ '.' :: rest.takeWhile (·.isDigit)).length =
        digits.length + (1 + (rest.takeWhile (·.isDigit)).length) := by
      rw [List.length_append, List.length_cons, Nat.add_comm 1]
    rw [length, ← List.drop_drop, left, ← List.drop_drop]
    exact drop_takeWhile (·.isDigit) rest
  next other =>
    have noPoint : after.head? ≠ some '.' := fun point => by
      obtain ⟨rest, same⟩ := List.head?_eq_some_iff.mp point
      exact other rest same
    rw [if_neg noPoint, left]

/-- A numeral writes a number. -/
theorem exists_decimal (numeral : isNumeral text = true) (negative : Bool) :
    ∃ number, Decimal.unsignedOf? negative text = some number := by
  simp only [isNumeral, Bool.and_eq_true, beq_iff_eq] at numeral
  obtain ⟨starts, whole⟩ := numeral
  have power : exponent (text.drop (mantissa text).length) = text.drop (mantissa text).length := by
    have dropped := congrArg (List.drop (mantissa text).length) whole
    rwa [List.drop_left] at dropped
  have more : text.takeWhile (·.isDigit) ≠ [] := by
    cases text with
    | nil => cases starts
    | cons c text =>
      have digit : c.isDigit = true := starts
      simp [digit]
  unfold Decimal.unsignedOf?
  simp only [← drop_mantissa]
  rw [if_neg fun nothing => more (List.append_eq_nil_iff.mp nothing).1]
  cases found : text.drop (mantissa text).length with
  | nil => exact ⟨_, rfl⟩
  | cons c rest =>
    rw [found] at power
    obtain ⟨known, value, read⟩ := exists_power power
    simp only [if_pos known, read]
    exact ⟨_, rfl⟩

end Numbers

section Lexemes

variable {digits : String} (numeral : isNumeral digits.toList = true)
include numeral

private theorem unsigned_numeral : ∀ rest, digits.toList ≠ '-' :: rest := by
  intro rest same
  rw [same] at numeral
  cases numeral

/-- A numeral with or without a sign is read as a number. -/
theorem float?_numeral (negative : Bool) : Value.float? (if negative then '-' :: digits.toList else digits.toList) =
    (Decimal.unsignedOf? negative digits.toList).map fun number => Value.float (.ofDecimal number) := by
  cases negative with
  | true => rfl
  | false =>
    have unsigned : Decimal.ofText? digits.toList = Decimal.unsignedOf? false digits.toList := by
      unfold Decimal.ofText?
      split
      next rest same => exact absurd same (unsigned_numeral numeral rest)
      next => rfl
    rw [if_neg Bool.false_ne_true, Value.float?, unsigned]

theorem integer?_numeral (integer : digits.toList.all (·.isDigit) = true) (negative : Bool) :
    Value.integer? (if negative then '-' :: digits.toList else digits.toList) =
      if Int64.minValue.toInt ≤ Literal.whole negative digits ∧ Literal.whole negative digits ≤ Int64.maxValue.toInt
      then some (.integer (Literal.whole negative digits)) else none := by
  have more : digits.toList ≠ [] := by
    intro nothing
    rw [nothing] at numeral
    cases numeral
  have number := natOf?_eq_some more integer
  have read : Value.integer? (if negative then '-' :: digits.toList else digits.toList) =
      ((some (Literal.whole negative digits)).filter fun value =>
        Int64.minValue.toInt ≤ value ∧ value ≤ Int64.maxValue.toInt).map .integer := by
    cases negative with
    | true =>
      unfold Value.integer?
      simp only [if_true, number]
      rfl
    | false =>
      unfold Value.integer?
      simp only [Bool.false_eq_true, if_false]
      split
      next rest same => exact absurd same (unsigned_numeral numeral rest)
      next =>
        rw [number]
        rfl
  rw [read, Option.filter_some]
  by_cases inside :
      Int64.minValue.toInt ≤ Literal.whole negative digits ∧ Literal.whole negative digits ≤ Int64.maxValue.toInt
  · rw [if_pos (decide_eq_true inside), if_pos inside, Option.map_some]
  · rw [if_neg (by simpa using inside), if_neg inside, Option.map_none]

theorem readValue_numeral (negative apart : Bool) :
    (ofNumeral digits apart).readValue negative = Literal.value (.number negative digits) := by
  obtain ⟨number, decimal⟩ := exists_decimal numeral negative
  have float := float?_numeral numeral negative
  rw [decimal, Option.map_some] at float
  have value : (ofNumeral digits apart).value = digits := rfl
  unfold readValue Literal.value
  simp only [value, decimal, float, Option.map_some, Option.getD_some]
  cases integer : digits.toList.all (·.isDigit) with
  | true =>
    have kind : (ofNumeral digits apart).kind = .integer := if_pos integer
    have read := integer?_numeral numeral integer negative
    simp only [kind, read, true_and, beq_self_eq_true, if_true]
    by_cases inside :
        Int64.minValue.toInt ≤ Literal.whole negative digits ∧ Literal.whole negative digits ≤ Int64.maxValue.toInt
    · simp only [if_pos inside]
      rfl
    · simp only [if_neg inside]
      rfl
  | false =>
    have kind : (ofNumeral digits apart).kind = .float := if_neg (by rw [integer]; exact Bool.false_ne_true)
    simp [kind]

end Lexemes

/-- A string is its content. -/
theorem readValue_string (content : String) (apart : Bool) :
    Lexeme.readValue false
        ⟨.literal, String.ofList (enclose singleQuote (double singleQuote content.toList)), none, apart⟩ =
            .text content := by
  have inside :
      stripQuotes (enclose singleQuote (double singleQuote content.toList)) = double singleQuote content.toList := by
    have whole : enclosed? singleQuote (enclose singleQuote (double singleQuote content.toList)) =
        some (double singleQuote content.toList) := by
      rw [enclose, List.cons_append, enclosed?, List.getLast?_concat, if_pos ⟨rfl, rfl⟩, List.dropLast_concat]
    rw [stripQuotes, List.findSome?_cons, whole]
    rfl
  have letters : (String.ofList (enclose singleQuote (double singleQuote content.toList))).toList =
      enclose singleQuote (double singleQuote content.toList) := String.toList_ofList
  have text :
      Lexeme.readValue false
        ⟨.literal, String.ofList (enclose singleQuote (double singleQuote content.toList)), none, apart⟩ =
      .text (String.ofList (undouble singleQuote (stripQuotes
        (String.ofList (enclose singleQuote (double singleQuote content.toList))).toList))) := by
    unfold readValue
    simp only [letters]
    rfl
  rw [text, letters, inside, undouble_double, String.ofList_toList]

theorem readValue_keyword {word : String} (known : word ∈ ["NULL", "TRUE", "FALSE", "DEFAULT"]) (apart : Bool) :
    (ofKeyword word apart).readValue false = .text word := by
  have words :
      ∀ word ∈ ["NULL", "TRUE", "FALSE", "DEFAULT"], String.ofList (stripQuotes word.toList) = word := by decide
  have whole : (ofKeyword word apart).readValue false = .text (String.ofList (stripQuotes word.toList)) := rfl
  rw [whole, words word known]

section Rows

variable {context : Context} {before after : List Lexeme}

theorem resumes_row (row : context.InRow) {later : Context} (resumes : context.Resumes later) : later.InRow :=
  ⟨resumes.clause.trans row.clause, resumes.opened.symm ▸ row.enclosed⟩

/-- A parenthesis in a row belongs to it. -/
theorem opening_row (row : context.InRow) (apart : Bool) : (context.step ⟨.punctuation, "(", none, apart⟩).InRow :=
  ⟨row.clause, List.cons_ne_nil _ _⟩

/-- The last lexeme of an item is read as its value. -/
theorem value?_item (row : context.InRow) {here : Lexeme} (noMark : here.isMark = false) (noSign : here.value ≠ "-")
    (ends : EndsItem after) : Spot.value? ⟨context, before, here, after⟩ =
      some (here.readValue (Spot.isNegated ⟨context, before, here, after⟩)) := by
  obtain ⟨frame, outer, opened⟩ := List.exists_cons_of_ne_nil row.enclosed
  refine if_pos ?_
  rw [Spot.endsItem, Spot.clause, row.clause, opened, noMark, bne_iff_ne.mpr noSign]
  exact ends

theorem value?_inside {here : Lexeme} (continues : ¬EndsItem after) :
    Spot.value? ⟨context, before, here, after⟩ = none := by
  refine if_neg fun ends => continues ?_
  rw [Spot.endsItem, Bool.and_eq_true] at ends
  exact ends.2

theorem isNegated_first (begins : BeginsItem before) (here : Lexeme) :
    Spot.isNegated ⟨context, before, here, after⟩ = false := by
  cases before with
  | nil => rfl
  | cons mark before =>
    have noSign : (mark.value == "-") = false := by
      rw [beq_eq_false_iff_ne]
      intro sign
      simp [BeginsItem, isPunctuation, sign] at begins
    rw [Spot.isNegated, Spot.previous, List.head?_cons, Option.any_some, noSign, Bool.false_and]

theorem values_single (row : context.InRow) (begins : BeginsItem before) (ends : EndsItem after)
    {here : Lexeme} {value : Value}
    (noMark : here.isMark = false) (noSign : here.value ≠ "-") (told : here.readValue false = value) :
    (spots context before [here] after).filterMap Spot.value? = [value] := by
  rw [filterMap_cons, List.nil_append, value?_item row noMark noSign ends, isNegated_first begins, told]
  rfl

/-- A number is read with the sign in front of it, however far that is from it. -/
theorem values_number (row : context.InRow) (begins : BeginsItem before) (ends : EndsItem after) {digits : String}
    (numeral : isNumeral digits.toList = true) (negative first apart : Bool) :
    (spots context before
      ((if negative then [⟨.operator, "-", none, first⟩] else []) ++ [ofNumeral digits apart]) after).filterMap
      Spot.value? = [Literal.value (.number negative digits)] := by
  have noMark : (ofNumeral digits apart).isMark = false := by
    rcases ofNumeral_cases digits apart with same | same <;> rw [same] <;> rfl
  have noSign : (ofNumeral digits apart).value ≠ "-" := by
    rintro (rfl : digits = "-")
    cases numeral
  cases negative with
  | false => exact values_single row begins ends noMark noSign (readValue_numeral numeral false apart)
  | true =>
    let sign : Lexeme := ⟨.operator, "-", none, first⟩
    have nothing : Spot.value? ⟨context, before, sign, [ofNumeral digits apart] ++ after⟩ = none := by
      refine value?_inside ?_
      rcases ofNumeral_cases digits apart with same | same <;> simp [EndsItem, same, isPunctuation]
    have resumes : context.Resumes (context.step sign) := resumes_step (staying_of_wordless ⟨rfl, rfl⟩)
    have negated : Spot.isNegated ⟨context.step sign, sign :: before, ofNumeral digits apart, after⟩ = true := by
      rw [Spot.isNegated, Spot.previous, List.getElem?_cons_succ, ← List.head?_eq_getElem?, List.head?_cons]
      exact begins
    change (spots context before [sign, ofNumeral digits apart] after).filterMap Spot.value? = _
    rw [filterMap_cons, filterMap_cons, List.nil_append, nothing,
      value?_item (resumes_row row resumes) noMark noSign ends, negated, readValue_numeral numeral]
    rfl

/-- A literal has one value. -/
theorem values_literal (row : context.InRow) (begins : BeginsItem before) (ends : EndsItem after)
    {literal : Literal} (known : literal.Known)
    (apart : Bool) : (spots context before (literal.lexemes apart) after).filterMap Spot.value? = [literal.value] := by
  have keyword {word : String} (known : word ∈ ["NULL", "TRUE", "FALSE", "DEFAULT"])
      (same : .text word = literal.value) :
      (spots context before [ofKeyword word apart] after).filterMap Spot.value? = [literal.value] := by
    have noSign : ∀ word ∈ ["NULL", "TRUE", "FALSE", "DEFAULT"], word ≠ "-" := by decide
    exact values_single row begins ends rfl (noSign word known) ((readValue_keyword known apart).trans same)
  cases literal with
  | number negative digits =>
    cases negative with
    | false => exact values_number row begins ends known false apart apart
    | true => exact values_number row begins ends known true apart false
  | string content =>
    refine values_single row begins ends rfl (fun same => ?_) (readValue_string content apart)
    have letters := congrArg String.toList same
    rw [String.toList_ofList] at letters
    cases letters
  | null => exact keyword (by decide) rfl
  | truth holds =>
    cases holds with
    | false => exact keyword (by decide) rfl
    | true => exact keyword (by decide) rfl

/-- What comes after a mark adds its values to those of the item before it. -/
theorem values_mark {mark : Lexeme} (isMark : mark.isMark = true) {part rest : List Lexeme} {values more : List Value}
    (item : (spots context before part (mark :: (rest ++ after))).filterMap Spot.value? = values)
    (later : (spots ((context.after part).step mark) (mark :: (part.reverse ++ before)) rest after).filterMap
      Spot.value? = more) :
    (spots context before (part ++ mark :: rest) after).filterMap Spot.value? = values ++ more := by
  rw [spots_append, List.filterMap_append, filterMap_cons, value?_of_mark isMark, later,
    Option.toList_none, List.nil_append]
  exact congrArg (· ++ more) item

theorem values_comma {part rest : List Lexeme} {values more : List Value}
    (item : (spots context before part (comma :: (rest ++ after))).filterMap Spot.value? = values)
    (later : (spots ((context.after part).step comma) (comma :: (part.reverse ++ before)) rest after).filterMap
      Spot.value? = more) :
    (spots context before (part ++ comma :: rest) after).filterMap Spot.value? = values ++ more :=
  values_mark rfl item later

theorem resumes_comma (context : Context) : context.Resumes (context.step comma) :=
  resumes_step (staying_of_wordless ⟨rfl, rfl⟩)

/-- A list of literals has their values. -/
theorem values_literals (row : context.InRow) (begins : BeginsItem before) (ends : EndsItem after)
    {literals : List Literal}
    (known : ∀ literal ∈ literals, literal.Known) (glued : Bool) :
    (spots context before ((Phrase.listed (literals.map .literal)).lexemes glued) after).filterMap Spot.value? =
      literals.map Literal.value := by
  induction literals generalizing context before glued with
  | nil => rfl
  | cons first rest ih =>
    have here := known first List.mem_cons_self
    have later (other : Literal) (member : other ∈ rest) := known other (List.mem_cons_of_mem _ member)
    cases rest with
    | nil =>
      have whole : (Phrase.listed [.literal first]).lexemes glued = first.lexemes (!glued) := List.append_nil _
      rw [List.map_cons, List.map_nil, whole]
      exact values_literal row begins ends here _
    | cons next more =>
      have resumes : context.Resumes ((context.after (first.lexemes (!glued))).step comma) :=
        (resumes_after (staying_literal first _)).trans (resumes_comma _)
      exact values_comma (values_literal row begins rfl here _) (ih (resumes_row row resumes) rfl later false)

end Rows

end QueryFacts.Proofs.LiteralValues

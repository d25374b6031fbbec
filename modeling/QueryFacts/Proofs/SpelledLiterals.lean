import Mathlib
import QueryFacts.Proofs.LiteralValues
import QueryFacts.Proofs.Spelling
import QueryFacts.Proofs.WrittenIdentifier

/-! Literals as a query spells them: what the lexer reads them as, and the values that they have in a
row. A string is read with its escapes undone and its quotes doubled, and its value has the quotes as
they were; the sign of a number is an item of its own. -/

namespace QueryFacts
open Text Lexer

/-- The item that a lexeme is, if it is a single one. -/
def Lexeme.item (lexeme : Lexeme) : Item := .lexical lexeme.kind lexeme.value.toList lexeme.quote

/-- A keyword is one of the words, without quotes and with its ASCII letters in any case. -/
def Lexeme.KeywordsIn (words : List String) (lexeme : Lexeme) : Prop :=
  lexeme.isKeyword = true → ∃ word ∈ words, lexeme.quote = none ∧ IsSpelling word lexeme.value.toList

inductive SpelledLiteral where
  /-- Digits, and perhaps a point and more of them. -/
  | number (negative : Bool) (whole : List Char) (fraction : Option (List Char))
  /-- `body` stands between the quotes, and `content` is what the lexer takes it for. -/
  | string (body content : List Char)
  | word (letters : List Char)
  | placeholder

namespace SpelledLiteral

def words : List String := ["NULL", "TRUE", "FALSE"]

def numeral (whole : List Char) (fraction : Option (List Char)) : List Char :=
  whole ++ (fraction.map ('.' :: ·)).getD []

def Known : SpelledLiteral → Prop
  | number _ whole fraction => whole ≠ [] ∧ (whole ++ fraction.getD []).all (·.isDigit) = true
  | string body content => quotedBody singleQuote true (body ++ [singleQuote]) = some (content, [])
  | word letters => ∃ word ∈ words, IsSpelling word letters
  | placeholder => True

instance : (literal : SpelledLiteral) → Decidable literal.Known
  | number _ whole fraction =>
    inferInstanceAs (Decidable (whole ≠ [] ∧ (whole ++ fraction.getD []).all (·.isDigit) = true))
  | string body content =>
    inferInstanceAs (Decidable (quotedBody singleQuote true (body ++ [singleQuote]) = some (content, [])))
  | word letters => inferInstanceAs (Decidable (∃ word ∈ words, IsSpelling word letters))
  | placeholder => isTrue trivial

def spelling : SpelledLiteral → List Char
  | number negative whole fraction => (if negative then ['-'] else []) ++ numeral whole fraction
  | string body _ => enclose singleQuote body
  | word letters => letters
  | placeholder => ['?']

def items : SpelledLiteral → List Item
  | number negative whole fraction => (if negative then [operator ['-']] else []) ++
      [.lexical (if fraction.isSome then .float else .integer) (numeral whole fraction) none]
  | string _ content => [Lexer.literal (enclose singleQuote (double singleQuote content))]
  | word letters => [.lexical .keyword letters none]
  | placeholder => [Lexer.literal ['?']]

def integer (negative : Bool) (digits : List Char) : Int :=
  if negative then -(Decimal.natOf digits : Int) else Decimal.natOf digits

/-- A number without a point is an integer if it fits, a string is its content, and others are spelled out. -/
def value : SpelledLiteral → Value
  | number negative whole none =>
    if Int64.minValue.toInt ≤ integer negative whole ∧ integer negative whole ≤ Int64.maxValue.toInt then
      .integer (integer negative whole)
    else .float (.ofDecimal ⟨negative, Decimal.natOf whole, 0⟩)
  | number negative whole (some fraction) =>
    .float (.ofDecimal ⟨negative, Decimal.natOf (whole ++ fraction), -fraction.length⟩)
  | string _ content => .text (String.ofList content)
  | word letters => .text (String.ofList letters)
  | placeholder => .text "?"

end SpelledLiteral

end QueryFacts

namespace QueryFacts.Proofs.SpelledLiterals
open Text Lexer Lexeme Spelling SpelledLiteral PlainText WrittenIdentifier SelectList Phrases Clauses Spots
open ValueSpots LiteralValues

section Words

variable {word : String} {letters : List Char}

theorem isAlpha_of_spelling (upper : word.toList.all (·.isUpper) = true) (spelled : IsSpelling word letters) :
    ∀ c ∈ letters, c.isAlpha = true := by
  intro c member
  rw [← Char.isUpper_toUpper_eq_isAlpha]
  exact List.all_eq_true.mp upper _ (spelled ▸ List.mem_map_of_mem member)

theorem isIdentifier_of_spelling (some : word.toList ≠ []) (upper : word.toList.all (·.isUpper) = true)
    (spelled : IsSpelling word letters) : isIdentifier letters = true := by
  refine isIdentifier_of_plain ?_
  have alpha := isAlpha_of_spelling upper spelled
  cases letters with
  | nil => exact absurd spelled.symm some
  | cons c rest =>
    obtain ⟨first, others⟩ := List.forall_mem_cons.mp alpha
    simp only [isPlainIdentifier, Bool.and_eq_true, Bool.or_eq_true, List.all_eq_true]
    exact ⟨.inl first, fun d member => .inl (.inl (by rw [Char.isAlphanum, others d member]; rfl))⟩

end Words

section Numbers

private theorem takeWhile_all {text : List Char} (digits : ∀ c ∈ text, c.isDigit = true) :
    text.takeWhile (·.isDigit) = text ∧ text.dropWhile (·.isDigit) = [] :=
  ⟨List.takeWhile_eq_self_iff.mpr digits, List.dropWhile_eq_nil_iff.mpr digits⟩

variable {negative : Bool} {whole : List Char} {fraction : Option (List Char)}
    (known : (number negative whole fraction).Known)
include known

private theorem digits_whole : ∀ c ∈ whole, c.isDigit = true := fun c member =>
  List.all_eq_true.mp known.2 c (List.mem_append_left _ member)

private theorem takeWhile_whole (rest : List Char) : (whole ++ '.' :: rest).takeWhile (·.isDigit) = whole ∧
    (whole ++ '.' :: rest).dropWhile (·.isDigit) = '.' :: rest := by
  have digits := digits_whole known
  constructor
  · rw [List.takeWhile_append_of_pos digits, List.takeWhile_cons_of_neg (by decide), List.append_nil]
  · rw [List.dropWhile_append_of_pos digits, List.dropWhile_cons_of_neg (by decide)]

/-- A number is an integer where it has no point. -/
theorem all_numeral : (numeral whole fraction).all (·.isDigit) = !fraction.isSome := by
  cases fraction with
  | none => simpa [numeral] using digits_whole known
  | some digits => simp [numeral]

theorem isNumeral_numeral : QueryFacts.isNumeral (numeral whole fraction) = true := by
  obtain ⟨c, rest, rfl⟩ := List.exists_cons_of_ne_nil known.1
  have first : c.isDigit = true := digits_whole known c List.mem_cons_self
  have mantissa : mantissa (numeral (c :: rest) fraction) = numeral (c :: rest) fraction := by
    cases fraction with
    | none =>
      obtain ⟨taken, -⟩ := takeWhile_all (digits_whole known)
      have all : numeral (c :: rest) none = c :: rest := List.append_nil _
      simp only [all, mantissa, taken, List.drop_length]
    | some digits =>
      obtain ⟨taken, -⟩ := takeWhile_whole known digits
      have later : digits.takeWhile (·.isDigit) = digits := (takeWhile_all fun d member =>
        List.all_eq_true.mp known.2 d (List.mem_append_right _ member)).1
      have all : numeral (c :: rest) (some digits) = c :: rest ++ '.' :: digits := rfl
      simp only [all, mantissa, taken, List.drop_left, later]
  rw [QueryFacts.isNumeral, mantissa, List.drop_length]
  simp [numeral, first, exponent]

theorem unsignedOf?_numeral : Decimal.unsignedOf? negative (numeral whole fraction) =
    some ⟨negative, Decimal.natOf (whole ++ fraction.getD []), -((fraction.getD []).length : Int)⟩ := by
  unfold Decimal.unsignedOf?
  cases fraction with
  | none =>
    obtain ⟨taken, dropped⟩ := takeWhile_all (digits_whole known)
    have all : numeral whole none = whole := List.append_nil _
    simp only [all, taken, dropped]
    simp [known.1]
  | some digits =>
    obtain ⟨taken, dropped⟩ := takeWhile_whole known digits
    have inside : ∀ c ∈ digits, c.isDigit = true :=
      fun c member => List.all_eq_true.mp known.2 c (List.mem_append_right _ member)
    obtain ⟨later, none⟩ := takeWhile_all inside
    have all : numeral whole (.some digits) = whole ++ '.' :: digits := rfl
    simp only [all, taken, dropped, List.head?_cons, if_true, List.drop_one, List.tail_cons, later, none]
    simp [known.1]

theorem literal_value : Literal.value (.number negative (String.ofList (numeral whole fraction))) =
    (number negative whole fraction).value := by
  have decimal := unsignedOf?_numeral known
  have signed :
      Literal.whole negative (String.ofList (numeral whole fraction)) = integer negative (numeral whole fraction) := by
    rw [Literal.whole, String.toList_ofList, integer]
  rw [Literal.value, signed, String.toList_ofList, all_numeral known, decimal, Option.map_some, Option.getD_some]
  cases fraction with
  | none =>
    have all : numeral whole none = whole := List.append_nil _
    simp [all, SpelledLiteral.value]
  | some digits => simp [SpelledLiteral.value]

end Numbers

section Items

/-- A quoted body is read to its closing quote, whatever comes after it. -/
theorem quotedBody_before {quote : Char} {escapes : Bool} {text content after : List Char}
    (apart : after.head? ≠ some quote)
    (closed : quotedBody quote escapes text = some (content, [])) :
    quotedBody quote escapes (text ++ after) = some (content, after) := by
  fun_induction quotedBody quote escapes text generalizing content with
  | case1 => cases closed
  | case2 =>
    cases closed
    cases after with
    | nil => simp [quotedBody]
    | cons d more =>
      have other : d ≠ quote := fun same => apart (congrArg some same)
      simp [quotedBody, other]
  | case3 => cases closed
  | case4 rest ih =>
    obtain ⟨⟨inner, left⟩, read, same⟩ := Option.map_eq_some_iff.mp closed
    obtain ⟨rfl, rfl⟩ := Prod.mk.inj same
    simp only [List.cons_append, quotedBody, ih read, if_true]
    rfl
  | case5 => cases closed
  | case6 c d rest other escaped ih =>
    obtain ⟨⟨inner, left⟩, read, same⟩ := Option.map_eq_some_iff.mp closed
    obtain ⟨rfl, rfl⟩ := Prod.mk.inj same
    simp only [List.cons_append, quotedBody, if_neg other, if_pos escaped, ih read]
    rfl
  | case7 c d rest other literal ih =>
    obtain ⟨⟨inner, left⟩, read, same⟩ := Option.map_eq_some_iff.mp closed
    obtain ⟨rfl, rfl⟩ := Prod.mk.inj same
    have more := ih read
    rw [List.cons_append] at more
    simp only [List.cons_append, quotedBody, if_neg other, if_neg literal, more]
    rfl

variable {literal : SpelledLiteral} (known : literal.Known) {after : List Char}
    (ends : ∀ c ∈ after.head?, endsNumber c = true)
include known ends

/-- Wherever a literal stands, it is read as its items. -/
theorem arrives_spelling : Arrives (literal.spelling ++ after) literal.items after := by
  cases literal with
  | number negative whole fraction =>
    have numeral' := isNumeral_numeral known
    have kind := all_numeral known
    have unsigned : Arrives (numeral whole fraction ++ after)
        [.lexical (if fraction.isSome then .float else .integer) (numeral whole fraction) none] after := by
      cases letters : numeral whole fraction with
      | nil => rw [letters] at numeral'; cases numeral'
      | cons c rest =>
        rw [letters] at numeral' kind
        have read := LiteralText.scan_numeral ends numeral'
        rw [kind] at read
        refine arrives_one.mpr (read.trans ?_)
        cases fraction <;> rfl
    cases negative with
    | false => exact unsigned
    | true =>
      have digit : (numeral whole fraction ++ after).head?.all (fun c => c == ' ' || c.isDigit) = true := by
        cases letters : numeral whole fraction with
        | nil => rw [letters] at numeral'; cases numeral'
        | cons c rest =>
          rw [letters] at numeral'
          simp only [isNumeral, List.head?_cons, Option.any_some, Bool.and_eq_true] at numeral'
          simp [numeral'.1]
      exact .next (scan_dash digit) unsigned
  | string body content =>
    have closed : quotedBody singleQuote true (body ++ [singleQuote]) = some (content, []) := known
    have apart : after.head? ≠ some singleQuote := fun quote => absurd (ends _ quote) (by decide)
    have string : string? singleQuote (body ++ [singleQuote] ++ after) =
        some (.ok (Lexer.literal (enclose singleQuote (double singleQuote content)), after)) := by
      rw [string?, if_pos rfl, quotedBody_before apart closed]
      rfl
    refine arrives_one.mpr ?_
    change scan singleQuote (body ++ [singleQuote] ++ after) = _
    rw [scan, string]
    rfl
  | word letters =>
    obtain ⟨word, member, spelled⟩ := known
    have facts : ∀ word ∈ words, word.toList ≠ [] ∧ word.toList.all (·.isUpper) = true ∧
        Keyword.isReserved word = true := by
      decide
    obtain ⟨some, upper, reserved⟩ := facts word member
    have identifier := isIdentifier_of_spelling some upper spelled
    have bounded : after.head?.all isBoundary = true := by
      rw [Option.all_eq_true]
      intro c found
      have border := ends c found
      simp only [endsNumber, Bool.or_eq_true, beq_iff_eq] at border
      rcases border with ((rfl | rfl) | rfl) | rfl <;> rfl
    cases letters with
    | nil => cases identifier
    | cons c rest =>
      have read := scan_word identifier bounded
      rw [Lexer.word, upper_of_spelling upper spelled, if_pos reserved] at read
      exact arrives_one.mpr read
  | placeholder =>
    refine arrives_one.mpr ?_
    cases after with
    | nil => rfl
    | cons c rest =>
      have border := ends c rfl
      simp only [endsNumber, Bool.or_eq_true, beq_iff_eq] at border
      rcases border with ((rfl | rfl) | rfl) | rfl <;> rfl

end Items

section Lexemes

variable {lexeme : Lexeme} {kind : TokenKind} {text : List Char} {quote : Option Char}

theorem exists_of_item (same : lexeme.item = .lexical kind text quote) :
    ∃ apart, lexeme = ⟨kind, String.ofList text, quote, apart⟩ := by
  obtain ⟨kind', value, quote', apart⟩ := lexeme
  cases same
  exact ⟨apart, by rw [String.ofList_toList]⟩

variable {literal : SpelledLiteral} (known : literal.Known)
include known

/-- A literal is neither a name nor a mark, and its only keywords are its words. -/
theorem kind_of_literal (item : lexeme.item ∈ literal.items) :
    lexeme.kind ∈ [TokenKind.keyword, .operator, .integer, .float, .literal] ∧
        lexeme.KeywordsIn SpelledLiteral.words := by
  have other {kind : TokenKind} {text : List Char} (same : lexeme.item = .lexical kind text none)
      (plain : kind ∈ [TokenKind.operator, .integer, .float, .literal]) :
      lexeme.kind ∈ [TokenKind.keyword, .operator, .integer, .float, .literal] ∧
          lexeme.KeywordsIn SpelledLiteral.words := by
    obtain ⟨apart, rfl⟩ := exists_of_item same
    refine ⟨List.mem_cons_of_mem _ plain, fun keyword => ?_⟩
    have kind : kind = .keyword := by simpa [isKeyword] using keyword
    rw [kind] at plain
    exact absurd plain (by decide)
  cases literal with
  | number negative whole fraction =>
    rcases List.mem_append.mp item with sign | number
    · cases negative with
      | false => cases sign
      | true => exact other (List.mem_singleton.mp sign) (by decide)
    · refine other (List.mem_singleton.mp number) ?_
      cases fraction with
      | none => exact show TokenKind.integer ∈ _ by decide
      | some digits => exact show TokenKind.float ∈ _ by decide
  | string body content => exact other (List.mem_singleton.mp item) (by decide)
  | word letters =>
    obtain ⟨apart, rfl⟩ := exists_of_item (List.mem_singleton.mp item)
    obtain ⟨word, listed, spelled⟩ := known
    exact ⟨List.mem_cons_self, fun _ => ⟨word, listed, rfl, by rwa [String.toList_ofList]⟩⟩
  | placeholder => exact other (List.mem_singleton.mp item) (by decide)

variable {context : Context} {before after part : List Lexeme}

/-- In a row a literal is read as its value. -/
theorem values_spelled (read : part.map Lexeme.item = literal.items) (row : context.InRow) (begins : BeginsItem before)
    (ends : EndsItem after) : (spots context before part after).filterMap Spot.value? = [literal.value] := by
  cases literal with
  | number negative whole fraction =>
    let digits := String.ofList (numeral whole fraction)
    have spelled : QueryFacts.isNumeral digits.toList = true := by
      rw [String.toList_ofList]
      exact isNumeral_numeral known
    have exists_numeral {here : Lexeme}
        (same : here.item = .lexical (if fraction.isSome then .float else .integer) (numeral whole fraction) none) :
        ∃ apart, here = ofNumeral digits apart := by
      obtain ⟨apart, rfl⟩ := exists_of_item same
      refine ⟨apart, ?_⟩
      rw [ofNumeral, String.toList_ofList, all_numeral known]
      cases fraction <;> rfl
    rw [← literal_value known]
    cases negative with
    | false =>
      obtain ⟨here, rfl, same⟩ := List.map_eq_singleton_iff.mp read
      obtain ⟨apart, rfl⟩ := exists_numeral same
      exact values_number row begins ends spelled false apart apart
    | true =>
      obtain ⟨sign, rest, rfl, signed, read⟩ := List.map_eq_cons_iff.mp read
      obtain ⟨here, rfl, same⟩ := List.map_eq_singleton_iff.mp read
      obtain ⟨first, rfl⟩ := exists_of_item signed
      obtain ⟨apart, rfl⟩ := exists_numeral same
      exact values_number row begins ends spelled true first apart
  | string body content =>
    obtain ⟨here, rfl, same⟩ := List.map_eq_singleton_iff.mp read
    obtain ⟨apart, rfl⟩ := exists_of_item same
    have told := readValue_string (String.ofList content) apart
    rw [String.toList_ofList] at told
    refine values_single row begins ends rfl (fun sign => ?_) told
    have letters := congrArg String.toList sign
    rw [String.toList_ofList] at letters
    cases letters
  | word letters =>
    obtain ⟨here, rfl, same⟩ := List.map_eq_singleton_iff.mp read
    obtain ⟨apart, rfl⟩ := exists_of_item same
    obtain ⟨word, listed, spelled⟩ := known
    have facts : ∀ word ∈ SpelledLiteral.words, word.toList ≠ [] ∧ word.toList.all (·.isUpper) = true := by decide
    have identifier := isIdentifier_of_spelling (facts word listed).1 (facts word listed).2 spelled
    refine values_single row begins ends rfl (fun sign => ?_) ?_
    · have letters := congrArg String.toList sign
      rw [String.toList_ofList] at letters
      rw [letters] at identifier
      cases identifier
    · have told : readValue false ⟨.keyword, String.ofList letters, none, apart⟩ =
          .text (String.ofList (stripQuotes (String.ofList letters).toList)) := rfl
      rw [told, String.toList_ofList, stripQuotes_identifier identifier]
      rfl
  | placeholder =>
    obtain ⟨here, rfl, same⟩ := List.map_eq_singleton_iff.mp read
    obtain ⟨apart, rfl⟩ := exists_of_item same
    have letters : (String.ofList ['?']).toList = ['?'] := String.toList_ofList
    refine values_single row begins ends rfl (show String.ofList ['?'] ≠ "-" by decide) ?_
    simp only [readValue, letters]
    rfl

end Lexemes

end QueryFacts.Proofs.SpelledLiterals

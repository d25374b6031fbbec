import QueryFacts.Proofs.Clauses
import QueryFacts.Proofs.Unnested

/-! The values of a statement as they look at its lexemes: what ends an item in a parenthesis while
VALUES is the last keyword that counts, a name as well as a literal. -/

namespace QueryFacts
open Text

/-- The value of a lexeme, perhaps after a sign. -/
def Lexeme.readValue (negated : Bool) (lexeme : Lexeme) : Value :=
  let chars := if negated then '-' :: lexeme.value.toList else lexeme.value.toList
  let number := (if lexeme.kind == .integer then Value.integer? chars else none) <|>
    (if lexeme.kind == .integer || lexeme.kind == .float then Value.float? chars else none)
  match number with
  | some value => value
  | none =>
    if lexeme.kind == .literal && lexeme.value.toList.head? == some singleQuote then
      .text (String.ofList (undouble singleQuote (stripQuotes lexeme.value.toList)))
    else .text (String.ofList (stripQuotes chars))

namespace Spot

/-- A sign stands before the lexeme, at the start of an item. -/
def isNegated (spot : Spot) : Bool :=
  spot.previous.any (·.value == "-") &&
    (spot.before[1]?.any (·.isPunctuation ",") || spot.before[1]?.any (·.isPunctuation "("))

def endsItem (spot : Spot) : Bool :=
  spot.clause == "VALUES" && !spot.context.opened.isEmpty && !spot.here.isMark && spot.here.value != "-"
    && (spot.next.any (·.isPunctuation ",") || spot.next.any (·.isPunctuation ")"))

def value? (spot : Spot) : Option Value := if spot.endsItem then some (spot.here.readValue spot.isNegated) else none

end Spot

end QueryFacts

namespace QueryFacts.Proofs.ValueSpots
open Text Lexeme NestingRun ColumnListStatement PlainText Clauses Spots ColumnSpots Unnested

section Passes

variable {limits : Limits} {lexemes : List Lexeme} {sequence : TokenSequence}
    (annotated : annotate limits lexemes = .ok sequence)
include annotated

theorem ofToken_eq {spot : Spot} (within : Within lexemes spot) :
    Value.ofToken (sequence.cursor spot.before.length) = spot.here.readValue spot.isNegated := by
  have here := shows_here annotated within.whole
  have previous := shows_previous annotated within.whole
  have second := shows_second annotated within.whole
  have value : (sequence.cursor spot.before.length).value = spot.here.value := here.value
  have kind (kind : TokenKind) :
      ((sequence.cursor spot.before.length).kind? == some kind) = (spot.here.kind == kind) := by
    rw [here.kind]
    rfl
  have sign : ((sequence.cursor spot.before.length).previous.value == "-") = spot.previous.any (·.value == "-") := by
    rw [previous.value, Spot.previous]
    cases spot.before.head? <;> rfl
  have negated : Value.isNegated (sequence.cursor spot.before.length) = spot.isNegated := by
    simp only [Value.isNegated, Spot.isNegated, sign, second.isComma, second.isLeftParen]
  unfold Value.ofToken
  simp only [value, negated, Cursor.isInteger, Cursor.isFloat, Cursor.isLiteral, kind]
  rfl

theorem endsItem_eq {spot : Spot} (within : Within lexemes spot) :
    Value.endsItem (sequence.cursor spot.before.length) = spot.endsItem := by
  have here := shows_here annotated within.whole
  have next := shows_next annotated within.whole
  have mark : (sequence.cursor spot.before.length).isPunctuation = spot.here.isMark := here.isPunctuation
  have value : (sequence.cursor spot.before.length).value = spot.here.value := here.value
  rw [Value.endsItem, Spot.endsItem, lastKeyword_eq annotated within, mark, value, next.isComma, next.isRightParen]
  cases punctuation : spot.here.isMark with
  | true => simp
  | false =>
    have bare : spot.here.side? ≠ some .closing := by
      intro closing
      have kind := side?_eq_closing.mp closing
      rw [isPunctuation, Bool.and_eq_true] at kind
      simp [isMark, kind.1] at punctuation
    rw [isInParenthesis_eq annotated within.whole bare, ← within.context]
    rfl

theorem ofTokens_eq :
    Value.ofTokens sequence = (spots (Context.start lexemes) [] lexemes []).filterMap Spot.value? := by
  have both : Value.ofTokens sequence =
      sequence.cursors.filterMap fun cursor => if Value.endsItem cursor then some (Value.ofToken cursor) else none := by
    rw [Value.ofTokens, ← List.filterMap_eq_map, List.filterMap_filter]
    rfl
  rw [both, filterMap_spots annotated fun _ within => ?_]
  rw [endsItem_eq annotated within, ofToken_eq annotated within, Spot.value?]

end Passes

/-- The values of a statement that has them. -/
theorem values_eq {limits : Limits} {text : String} {lexemes : List Lexeme} {sequence : TokenSequence}
    (reading : Reading limits text lexemes sequence) {kind : StatementKind}
    (known : StatementKind.ofTokens sequence = .ok kind)
    (valued : kind.hasValues = true) :
    (Query.ofText text limits).values = .ok ((spots (Context.start lexemes) [] lexemes []).filterMap Spot.value?) := by
  have read : (Query.ofText text limits).tokens = .ok sequence := reading.tokens
  have told : (Query.ofText text limits).kind = .ok kind := by
    change queryTokens limits text >>= StatementKind.ofTokens = .ok kind
    rw [reading.tokens]
    exact known
  rw [Query.values, told, read, ← ofTokens_eq reading.annotated]
  simp only [bind, Except.bind, valued, if_true]
  rfl

section Parts

variable {context : Context} {before part : List Lexeme}

theorem value?_of_mark {spot : Spot} (mark : spot.here.isMark = true) : spot.value? = none := by
  simp [Spot.value?, Spot.endsItem, mark]

theorem value?_outside {spot : Spot} (opened : spot.context.opened = []) : spot.value? = none := by
  simp [Spot.value?, Spot.endsItem, opened]

/-- Outside parentheses there are no values. -/
theorem values_flat (flat : ∀ lexeme ∈ part, lexeme.side? = none) (opened : context.opened = []) (after : List Lexeme) :
    (spots context before part after).filterMap Spot.value? = [] :=
  List.filterMap_eq_nil_iff.mpr fun spot member => value?_outside ((opened_spots flat spot member).trans opened)

/-- What comes after a mark changes none of the values before it. -/
theorem values_until {last : Lexeme} (mark : last.isMark = true) (after : List Lexeme) :
    (spots context before (part ++ [last]) after).filterMap Spot.value? =
      (spots context before (part ++ [last]) []).filterMap Spot.value? := by
  induction part generalizing context before with
  | nil =>
    rw [List.nil_append, filterMap_cons, filterMap_cons, value?_of_mark mark, value?_of_mark mark]
    rfl
  | cons lexeme part ih =>
    have here : Spot.value? ⟨context, before, lexeme, part ++ [last] ++ after⟩ =
        Spot.value? ⟨context, before, lexeme, part ++ [last] ++ []⟩ := by
      have next : (part ++ [last] ++ after).head? = (part ++ [last] ++ []).head? := by cases part <;> rfl
      simp only [Spot.value?, Spot.endsItem, Spot.next, next, Spot.clause, Spot.isNegated, Spot.previous]
      rfl
    rw [List.cons_append, filterMap_cons, filterMap_cons, here, ih]

/-- An identifier has no quotes around it. -/
theorem stripQuotes_identifier {text : List Char} (spelled : isIdentifier text = true) : stripQuotes text = text := by
  have noQuote : ∀ quote ∈ [singleQuote, doubleQuote, backtick], enclosed? quote text = none := by
    have odd :
        [singleQuote, doubleQuote, backtick].all (fun quote => !Lexer.isIdentifierStart quote) = true := by decide
    intro quote member
    cases text with
    | nil => rfl
    | cons c rest =>
      refine if_neg fun ⟨same, _⟩ => ?_
      have other : Lexer.isIdentifierStart quote = false := by simpa using List.all_eq_true.mp odd quote member
      rw [isIdentifier, same, other] at spelled
      cases spelled
  rw [stripQuotes, List.findSome?_eq_none_iff.mpr noQuote]
  rfl

/-- A name is its own value. -/
theorem readValue_name {name : String} (spelled : isIdentifier name.toList = true) (apart : Bool) :
    (ofName name apart).readValue false = .text name := by
  have whole : (ofName name apart).readValue false = .text (String.ofList (stripQuotes name.toList)) := rfl
  rw [whole, stripQuotes_identifier spelled, String.ofList_toList]

end Parts

end QueryFacts.Proofs.ValueSpots

import QueryFacts.Keyword
import QueryFacts.Token

/-! Positions in a sequence of tokens. A cursor off the sequence is empty: it has no
text and no class, and every step from it is empty again. -/

namespace QueryFacts

structure Cursor where
  sequence : TokenSequence
  index : Option Nat

inductive Direction where
  | left
  | right
  deriving DecidableEq

namespace TokenSequence

/-- The cursor at a position, empty beyond the last. -/
def cursor (sequence : TokenSequence) (index : Nat) : Cursor :=
  ⟨sequence, if index < sequence.size then some index else none⟩

def cursors (sequence : TokenSequence) : List Cursor :=
  (List.range sequence.size).map fun index => ⟨sequence, some index⟩

end TokenSequence

namespace Cursor

def empty (sequence : TokenSequence) : Cursor := ⟨sequence, none⟩

def isEmpty (cursor : Cursor) : Bool := cursor.index.isNone

def token? (cursor : Cursor) : Option Token := cursor.index.bind (cursor.sequence.tokens[·]?)

def moveTo (cursor : Cursor) (index : Nat) : Cursor := cursor.sequence.cursor index

def value (cursor : Cursor) : String := (cursor.token?.map (·.value)).getD ""

def normalized (cursor : Cursor) : String := (cursor.token?.map (·.normalized)).getD ""

def kind? (cursor : Cursor) : Option TokenKind := cursor.token?.map (·.kind)

def isName (cursor : Cursor) : Bool := cursor.kind? == some .name

def isKeyword (cursor : Cursor) : Bool := cursor.kind? == some .keyword

/-- The keyword with the normal form `word`. -/
def isWord (cursor : Cursor) (word : String) : Bool := cursor.isKeyword && cursor.normalized == word

def isDot (cursor : Cursor) : Bool := cursor.kind? == some .dot

/-- A dot counts as punctuation here. -/
def isPunctuation (cursor : Cursor) : Bool := cursor.kind? == some .punctuation || cursor.isDot

def isComma (cursor : Cursor) : Bool := cursor.kind? == some .punctuation && cursor.value == ","

def isWildcard (cursor : Cursor) : Bool := cursor.kind? == some .wildcard

def isInteger (cursor : Cursor) : Bool := cursor.kind? == some .integer

def isFloat (cursor : Cursor) : Bool := cursor.kind? == some .float

def isLiteral (cursor : Cursor) : Bool := cursor.kind? == some .literal

def paren? (cursor : Cursor) : Option ParenRole := cursor.token?.bind (·.paren)

def isLeftParen (cursor : Cursor) : Bool := cursor.paren?.any (·.side == .opening)

def isRightParen (cursor : Cursor) : Bool := cursor.paren?.any (·.side == .closing)

def opens (cursor : Cursor) (kind : ParenKind) : Bool := cursor.paren? == some ⟨kind, .opening⟩

def closes (cursor : Cursor) (kind : ParenKind) : Bool := cursor.paren? == some ⟨kind, .closing⟩

def lastKeyword? (cursor : Cursor) : Option KeywordMark := cursor.token?.bind (·.lastKeyword)

def lastKeyword (cursor : Cursor) : String := (cursor.lastKeyword?.map (·.word)).getD ""

def level (cursor : Cursor) : Nat := (cursor.token?.map (·.level)).getD 0

def display (cursor : Cursor) : String := (cursor.token?.map (·.display)).getD ""

/-- The token `count` places to the left. -/
def back (cursor : Cursor) (count : Nat) : Cursor :=
  ⟨cursor.sequence, cursor.index.bind fun index => if count ≤ index then some (index - count) else none⟩

def previous (cursor : Cursor) : Cursor := cursor.back 1

def next (cursor : Cursor) : Cursor :=
  ⟨cursor.sequence, cursor.index.bind fun index => if index + 1 < cursor.sequence.size then some (index + 1) else none⟩

/-- The innermost open parenthesis around the token. -/
def enclosing (cursor : Cursor) : Cursor := ⟨cursor.sequence, cursor.token?.bind (·.enclosing)⟩

/-- The other parenthesis of a pair. -/
def matching (cursor : Cursor) : Cursor := ⟨cursor.sequence, cursor.token?.bind (·.matching)⟩

/-- The last of the first `count` positions that satisfies `holds`. -/
def lastBelow (holds : Nat → Bool) : Nat → Option Nat
  | 0 => none
  | count + 1 => if holds count then some count else lastBelow holds count

/-- The first of the `count` positions from `start` that satisfies `holds`. -/
def firstFrom (holds : Nat → Bool) (start : Nat) : Nat → Option Nat
  | 0 => none
  | count + 1 => if holds start then some start else firstFrom holds (start + 1) count

/-- The nearest other token in a direction that satisfies `holds`. -/
def find (cursor : Cursor) (direction : Direction) (holds : Cursor → Bool) : Cursor :=
  let test := fun index => holds ⟨cursor.sequence, some index⟩
  ⟨cursor.sequence, cursor.index.bind fun index => match direction with
    | .left => lastBelow test index
    | .right => firstFrom test (index + 1) (cursor.sequence.size - (index + 1))⟩

/-- Strictly to the left of another token; an empty cursor has nothing to its left. -/
def isBefore (cursor other : Cursor) : Bool :=
  match cursor.index, other.index with
  | some first, some second => first < second
  | _, _ => false

/-- The tokens strictly between two others. -/
def between (first last : Cursor) : List Cursor :=
  match first.index, last.index with
  | some start, some stop =>
    (List.range' (start + 1) (stop - (start + 1))).map fun index => ⟨first.sequence, some index⟩
  | _, _ => []

def isInParenthesis (cursor : Cursor) : Bool := !cursor.enclosing.isEmpty

def isInNestedFunction (cursor : Cursor) : Bool := cursor.enclosing.opens .nestedFunction

/-- Among the arguments of a cast. -/
def isInTypeCast (cursor : Cursor) : Bool :=
  cursor.isInNestedFunction && Keyword.isTypeCast cursor.enclosing.previous.normalized

/-- The parts of the dotted name that ends at a position. -/
def nameParts (sequence : TokenSequence) : Nat → List String
  | 0 => [(sequence.cursor 0).value]
  | 1 => [(sequence.cursor 1).value]
  | index + 2 =>
    let last := (sequence.cursor (index + 2)).value
    if (sequence.cursor (index + 1)).isDot && (sequence.cursor index).isName then nameParts sequence index ++ [last]
    else [last]

/-- The dotted name that ends at the token, such as `schema.table.column`. -/
def dottedName (cursor : Cursor) : String :=
  match cursor.index with
  | none => ""
  | some index => String.intercalate "." (nameParts cursor.sequence index)

section Steps

variable {sequence : TokenSequence} {index : Nat}

theorem token?_cursor : (sequence.cursor index).token? = sequence.tokens[index]? := by
  unfold TokenSequence.cursor token?
  split
  · rfl
  next beyond => exact (Array.getElem?_eq_none (Nat.le_of_not_lt beyond)).symm

theorem mem_of_token? {cursor : Cursor} {token : Token} (found : cursor.token? = some token) :
    token ∈ cursor.sequence.tokens := by
  obtain ⟨index, -, here⟩ := Option.bind_eq_some_iff.1 found
  exact Array.mem_of_getElem? here

theorem cursor_of_lt (inside : index < sequence.size) : sequence.cursor index = ⟨sequence, some index⟩ := by
  rw [TokenSequence.cursor, if_pos inside]

theorem next_cursor : (sequence.cursor index).next = sequence.cursor (index + 1) := by
  unfold TokenSequence.cursor next
  split
  · rfl
  next beyond => rw [if_neg (by omega)]; rfl

theorem previous_cursor (inside : index + 1 < sequence.size) :
    (sequence.cursor (index + 1)).previous = sequence.cursor index := by
  rw [cursor_of_lt inside, cursor_of_lt (Nat.lt_of_succ_lt inside)]
  rfl

theorem cursors_eq_map (sequence : TokenSequence) :
    sequence.cursors = (List.range sequence.size).map sequence.cursor :=
  List.map_congr_left fun _ member => (cursor_of_lt (List.mem_range.1 member)).symm

theorem mem_cursors {cursor : Cursor} (member : cursor ∈ sequence.cursors) :
    ∃ index, index < sequence.size ∧ cursor = sequence.cursor index := by
  rw [cursors_eq_map] at member
  obtain ⟨index, inside, rfl⟩ := List.mem_map.1 member
  exact ⟨index, List.mem_range.1 inside, rfl⟩

/-- What a list of the cursors says of their tokens, a list of the tokens says. -/
theorem filterMap_cursors {α : Type} {ofCursor : Cursor → Option α} {ofToken : Token → Option α}
    (same : ∀ index token, sequence.tokens[index]? = some token → ofCursor (sequence.cursor index) = ofToken token) :
    sequence.cursors.filterMap ofCursor = sequence.tokens.toList.filterMap ofToken := by
  have each : sequence.cursors.map ofCursor = sequence.tokens.toList.map ofToken := by
    rw [cursors_eq_map, List.map_map]
    refine List.ext_getElem (by simp [TokenSequence.size]) fun index inside _ => ?_
    rw [List.length_map, List.length_range] at inside
    simp only [List.getElem_map, Function.comp_apply, List.getElem_range, Array.getElem_toList]
    exact same index _ (Array.getElem?_eq_getElem inside)
  have whole := congrArg (List.filterMap id) each
  rwa [List.filterMap_map, List.filterMap_map] at whole

/-- What a list of the cursors between two others says of their tokens, a list of the tokens says. -/
theorem filterMap_between {α : Type} {first last : Nat} (order : first < last) (inside : last < sequence.size)
    {ofCursor : Cursor → Option α} {ofToken : Token → Option α} (same : ∀ index token, first < index → index < last →
      sequence.tokens[index]? = some token → ofCursor (sequence.cursor index) = ofToken token) :
    ((sequence.cursor first).between (sequence.cursor last)).filterMap ofCursor =
      (sequence.between first last).filterMap ofToken := by
  have each : ((sequence.cursor first).between (sequence.cursor last)).map ofCursor =
      (sequence.between first last).map ofToken := by
    rw [cursor_of_lt inside, cursor_of_lt (Nat.lt_trans order inside)]
    unfold between TokenSequence.between
    rw [TokenSequence.size] at inside
    refine List.ext_getElem (by simp; omega) fun place here _ => ?_
    simp only [List.length_map, List.length_range'] at here
    have below : first + 1 + place < sequence.tokens.size := by omega
    have told := same _ _ (by omega) (by omega) (Array.getElem?_eq_getElem below)
    rw [cursor_of_lt below] at told
    simpa using told
  have whole := congrArg (List.filterMap id) each
  rwa [List.filterMap_map, List.filterMap_map] at whole

end Steps

end Cursor

end QueryFacts

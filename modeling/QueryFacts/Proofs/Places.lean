import QueryFacts.Proofs.CoherentFacts
import QueryFacts.Proofs.Signs

/-! The extraction as it works on statements without calls, lists of values, and the like.
Each step of it looks at one sign and at a few of those around it, so it is said of a place
among the signs of a statement, and statements are taken apart into pieces with it. -/

namespace QueryFacts

namespace Sign

def isName (sign : Sign) : Bool := sign.lexeme.kind == .name

def isDot (sign : Sign) : Bool := sign.lexeme.kind == .dot

def isWord (word : String) (sign : Sign) : Bool := sign.lexeme.kind == .keyword && sign.normalized == word

def isPunctuation (sign : Sign) : Bool := sign.lexeme.kind == .punctuation || sign.isDot

def isComma (sign : Sign) : Bool := sign.lexeme.kind == .punctuation && sign.lexeme.value == ","

/-- Before it an item ends, and after it another one may begin. -/
def separates (sign : Sign) : Bool :=
  sign.isComma || (sign.lexeme.kind == .keyword && Keyword.precedesColumns sign.normalized)

def opens (sign : Sign) : Bool := sign.paren.any (·.side == .opening)

def closes (sign : Sign) : Bool := sign.paren.any (·.side == .closing)

/-- Signs with nothing in them that only some statements have. -/
structure Simple (sign : Sign) : Prop where
  kind : sign.lexeme.kind = .keyword ∨ sign.lexeme.kind = .name ∨ sign.lexeme.kind = .punctuation ∨
    sign.lexeme.kind = .dot ∨ sign.lexeme.kind = .operator
  keyword : sign.lexeme.kind = .keyword → sign.normalized ∈ ["SELECT", "FROM", "WITH", "AS", "JOIN", "ON"]
  name : sign.isName = true → Keyword.isIgnoredFunction sign.normalized = false ∧ sign.paren = none
  value : sign.lexeme.value ≠ "::"
  paren : ∀ role ∈ sign.paren, role.kind = .subquery ∨ role.kind = .withQuery
  around : ∀ role ∈ sign.around, role.kind = .subquery ∨ role.kind = .withQuery
  clause : sign.clause ≠ some "INTO" ∧ sign.clause ≠ some "USING"

end Sign

/-- A sign with those before it, nearest first, and those after it. -/
structure Place where
  before : List Sign
  here : Sign
  after : List Sign

namespace Place

def previous (place : Place) : Option Sign := place.before.head?

def next (place : Place) : Option Sign := place.after.head?

def clause (place : Place) : String := place.here.clause.getD ""

/-- The parts of the dotted name that ends at a sign. -/
def nameParts : List Sign → Sign → List String
  | dot :: name :: before, here =>
    if dot.isDot && name.isName then nameParts before name ++ [here.lexeme.value] else [here.lexeme.value]
  | [_], here => [here.lexeme.value]
  | [], here => [here.lexeme.value]

def dottedName (place : Place) : String := String.intercalate "." (nameParts place.before place.here)

/-- A name with a column for a meaning, unless it is declared here. -/
def isColumn (place : Place) : Bool :=
  place.here.isName && Keyword.precedesColumns place.clause && !place.next.any Sign.isDot && !place.next.any Sign.opens
    && !place.previous.any (Sign.isWord "AS") && !place.previous.any Sign.closes

def endsItem (place : Place) : Bool :=
  place.next.all fun after => after.isComma || after.isWord "FROM" || after.paren == some ⟨.subquery, .closing⟩
    || after.paren == some ⟨.withQuery, .closing⟩

def declares (place : Place) : Bool :=
  place.here.isName && !place.next.any Sign.isDot && !place.next.any Sign.opens && Keyword.precedesColumns place.clause
    && (place.previous.any (Sign.isWord "AS")
      || (place.clause == "SELECT" && place.endsItem && place.previous.any Sign.isName))

def mention? (aliasNames : List String) (place : Place) : Option Column.Mention :=
  if place.isColumn && !place.declares then
    (Section.ofKeyword? place.clause).map fun sec =>
      if !place.dottedName.toList.contains '.' && aliasNames.contains place.dottedName then
        .aliasName place.dottedName sec
      else .column place.dottedName sec
  else none

def declaration? (place : Place) : Option AliasDeclaration :=
  if place.declares then
    some ⟨place.here.lexeme.value, place.before.length, Section.ofKeyword? place.clause, .expression⟩
  else none

def table? (place : Place) : Option String :=
  if !place.here.isName || !Keyword.precedesTables place.clause then none
  else if place.previous.any (Sign.isWord "AS") || place.previous.any (Sign.isWord "WITH") || place.next.any Sign.isDot
      || (place.here.outside && place.here.around != some ⟨.subquery, .opening⟩) then none
  else if place.previous.any Sign.isDot then some place.dottedName
  else
    let starts := (place.previous.map (·.normalized)).getD "" == place.clause || place.previous.any Sign.isPunctuation
    if starts && !place.previous.any Sign.closes then some place.here.lexeme.value else none

end Place

/-- The places of signs among others. -/
def places (before : List Sign) : List Sign → List Sign → List Place
  | [], _ => []
  | here :: rest, after => ⟨before, here, rest ++ after⟩ :: places (here :: before) rest after

theorem places_singleton (before : List Sign) (here : Sign) (after : List Sign) :
    places before [here] after = [⟨before, here, after⟩] := rfl

theorem places_append (before first rest after : List Sign) :
    places before (first ++ rest) after =
      places before first (rest ++ after) ++ places (first.reverse ++ before) rest after := by
  induction first generalizing before with
  | nil => rfl
  | cons here first ih => simp [places, ih]

theorem here_mem_of_mem_places {before rest after : List Sign} {place : Place}
    (member : place ∈ places before rest after) :
    place.here ∈ rest := by
  induction rest generalizing before with
  | nil => cases member
  | cons here rest ih =>
    rcases List.mem_cons.mp member with rfl | later
    · exact List.mem_cons_self
    · exact List.mem_cons_of_mem _ (ih later)

end QueryFacts

namespace QueryFacts.Proofs.Places

section Cursor

variable (cursor : Cursor)

theorem kind? : cursor.kind? = cursor.sign?.map (·.lexeme.kind) := by
  unfold Cursor.kind? Cursor.sign?
  cases cursor.token? <;> rfl

theorem value : cursor.value = (cursor.sign?.map (·.lexeme.value)).getD "" := by
  unfold Cursor.value Cursor.sign?
  cases cursor.token? <;> rfl

theorem normalized : cursor.normalized = (cursor.sign?.map (·.normalized)).getD "" := by
  unfold Cursor.normalized Cursor.sign?
  cases cursor.token? <;> rfl

theorem paren? : cursor.paren? = cursor.sign?.bind (·.paren) := by
  unfold Cursor.paren? Cursor.sign?
  cases cursor.token? <;> rfl

theorem lastKeyword : cursor.lastKeyword = (cursor.sign?.bind (·.clause)).getD "" := by
  unfold Cursor.lastKeyword Cursor.lastKeyword? Cursor.sign?
  cases cursor.token? <;> rfl

theorem enclosing : cursor.enclosing.paren? = cursor.sign?.bind (·.around) := by
  cases found : cursor.token? with
  | none =>
    have outside : cursor.enclosing = Cursor.empty cursor.sequence := by rw [Cursor.enclosing, found]; rfl
    rw [outside, Cursor.sign?, found]
    rfl
  | some token =>
    rw [Cursor.sign?, found]
    rfl

theorem isName : cursor.isName = cursor.sign?.any Sign.isName := by
  rw [Cursor.isName, kind?]
  cases cursor.sign? <;> rfl

theorem isDot : cursor.isDot = cursor.sign?.any Sign.isDot := by
  rw [Cursor.isDot, kind?]
  cases cursor.sign? <;> rfl

theorem isWord (word : String) : cursor.isWord word = cursor.sign?.any (Sign.isWord word) := by
  rw [Cursor.isWord, Cursor.isKeyword, kind?, normalized]
  cases cursor.sign? <;> rfl

theorem isPunctuation : cursor.isPunctuation = cursor.sign?.any Sign.isPunctuation := by
  rw [Cursor.isPunctuation, isDot, kind?]
  cases cursor.sign? <;> rfl

theorem isComma : cursor.isComma = cursor.sign?.any Sign.isComma := by
  rw [Cursor.isComma, kind?, value]
  cases cursor.sign? <;> rfl

theorem isLeftParen : cursor.isLeftParen = cursor.sign?.any Sign.opens := by
  rw [Cursor.isLeftParen, paren?]
  cases cursor.sign? <;> rfl

theorem isRightParen : cursor.isRightParen = cursor.sign?.any Sign.closes := by
  rw [Cursor.isRightParen, paren?]
  cases cursor.sign? <;> rfl

theorem isInColumnList {cursor : Cursor} {sign : Sign} (found : cursor.sign? = some sign) (bare : sign.paren = none) :
    Table.isInColumnList cursor = (sign.outside && sign.around != some ⟨.subquery, .opening⟩) := by
  have around : cursor.enclosing.opens .subquery = (sign.around == some ⟨.subquery, .opening⟩) := by
    rw [Cursor.opens, enclosing, found]
    rfl
  obtain ⟨token, stored, rfl⟩ := Option.map_eq_some_iff.mp found
  have opening : cursor.enclosing.index = token.enclosing := by rw [Cursor.enclosing, stored]; rfl
  have keyword : cursor.lastKeyword? = token.lastKeyword := by rw [Cursor.lastKeyword?, stored]; rfl
  simp only at bare around
  simp only [Table.isInColumnList, around, opening, keyword, bare, bne, Option.isNone_none, Bool.true_and]
  exact Bool.and_comm _ _

theorem isEmpty_of_sign? {cursor : Cursor} {sign : Sign} (found : cursor.sign? = some sign) :
    cursor.isEmpty = false := by
  unfold Cursor.sign? Cursor.token? at found
  unfold Cursor.isEmpty
  cases index : cursor.index with
  | none => rw [index] at found; cases found
  | some index => rfl

end Cursor

section Simple

variable {cursor : Cursor} {found : Option Sign} (here : cursor.sign? = found) (simple : ∀ sign ∈ found, sign.Simple)
include here simple

theorem kind?_ne {kind : TokenKind} (other : kind ≠ .keyword ∧ kind ≠ .name ∧ kind ≠ .punctuation ∧ kind ≠ .dot ∧
    kind ≠ .operator) : cursor.kind? ≠ some kind := by
  rw [kind?, here]
  intro same
  obtain ⟨sign, known, rfl⟩ := Option.map_eq_some_iff.mp same
  rcases (simple sign known).kind with same | same | same | same | same <;> simp [same] at other

theorem isWildcard_eq_false : cursor.isWildcard = false := beq_eq_false_iff_ne.mpr (kind?_ne here simple (by decide))

theorem isInteger_eq_false : cursor.isInteger = false := beq_eq_false_iff_ne.mpr (kind?_ne here simple (by decide))

theorem isLiteral_eq_false : cursor.isLiteral = false := beq_eq_false_iff_ne.mpr (kind?_ne here simple (by decide))

theorem isWord_eq_false {word : String} (other : word ∉ ["SELECT", "FROM", "WITH", "AS", "JOIN", "ON"]) :
    cursor.isWord word = false := by
  rw [isWord, here]
  cases found with
  | none => rfl
  | some sign =>
    simp only [Option.any_some, Sign.isWord, Bool.and_eq_false_iff, beq_eq_false_iff_ne]
    refine or_iff_not_imp_left.mpr fun keyword same => other ?_
    exact same ▸ (simple sign rfl).keyword (not_not.mp keyword)

theorem closes_eq_false {kind : ParenKind} (other : kind ≠ .subquery ∧ kind ≠ .withQuery) :
    cursor.closes kind = false := by
  rw [Cursor.closes, paren?, here]
  refine beq_eq_false_iff_ne.mpr fun same => ?_
  obtain ⟨sign, known, role⟩ := Option.bind_eq_some_iff.mp same
  rcases (simple sign known).paren _ role with same | same
  · exact other.1 same
  · exact other.2 same

theorem encloses_eq_false {kind : ParenKind} (other : kind ≠ .subquery ∧ kind ≠ .withQuery) :
    cursor.enclosing.opens kind = false := by
  rw [Cursor.opens, enclosing, here]
  refine beq_eq_false_iff_ne.mpr fun same => ?_
  obtain ⟨sign, known, role⟩ := Option.bind_eq_some_iff.mp same
  rcases (simple sign known).around _ role with same | same
  · exact other.1 same
  · exact other.2 same

theorem value_ne : cursor.value ≠ "::" := by
  rw [value, here]
  cases found with
  | none => decide
  | some sign => exact (simple sign rfl).value

end Simple

/-- A cursor at a place, with simple signs there and next to it. -/
structure Sees (cursor : Cursor) (place : Place) : Prop where
  here : cursor.sign? = some place.here
  next : cursor.next.sign? = place.next
  ends : place.next = none → cursor.next.isEmpty = true
  previous : cursor.previous.sign? = place.previous
  index : cursor.index = some place.before.length
  dottedName : cursor.dottedName = place.dottedName
  simple : ∀ sign, sign = place.here ∨ sign ∈ place.previous ∨ sign ∈ place.next → sign.Simple

namespace Sees

variable {cursor : Cursor} {place : Place} (sees : Sees cursor place)
include sees

theorem simpleHere : ∀ sign ∈ some place.here, sign.Simple := fun sign member =>
  sees.simple sign (.inl (Option.mem_some.mp member).symm)

theorem simplePrevious : ∀ sign ∈ place.previous, sign.Simple :=
  fun sign member => sees.simple sign (.inr (.inl member))

theorem simpleNext : ∀ sign ∈ place.next, sign.Simple := fun sign member => sees.simple sign (.inr (.inr member))

theorem isName : cursor.isName = place.here.isName := by
  rw [Places.isName, sees.here]
  rfl

theorem lastKeyword : cursor.lastKeyword = place.clause := by
  rw [Places.lastKeyword, sees.here]
  rfl

theorem clause_ne {word : String} (other : word = "INTO" ∨ word = "USING") : place.clause ≠ word := by
  have known := (sees.simpleHere place.here rfl).clause
  unfold Place.clause
  cases clause : place.here.clause with
  | none => rcases other with rfl | rfl <;> decide
  | some found =>
    rw [clause] at known
    rcases other with rfl | rfl
    · exact fun same => known.1 (congrArg some same)
    · exact fun same => known.2 (congrArg some same)

theorem section? : Column.section? cursor =
    if Keyword.precedesColumns place.clause then Section.ofKeyword? place.clause else none := by
  simp only [Column.section?, sees.lastKeyword, if_neg (sees.clause_ne (.inl rfl)), if_neg (sees.clause_ne (.inr rfl))]

theorem isExcluded (declared : List Nat) (name : place.here.isName = true) : Column.isExcluded cursor declared =
    (place.next.any Sign.isDot || place.next.any Sign.opens || place.previous.any (Sign.isWord "AS")
      || place.previous.any Sign.closes || declared.contains place.before.length) := by
  have free : Keyword.isIgnoredFunction cursor.normalized = false := by
    rw [normalized, sees.here]
    exact ((sees.simpleHere place.here rfl).name name).1
  have unit : Column.isIntervalUnit cursor = false := by
    simp only [Column.isIntervalUnit, isInteger_eq_false sees.previous sees.simplePrevious,
      isLiteral_eq_false sees.previous sees.simplePrevious, Bool.or_self, Bool.false_and]
  have noCast : (cursor.previous.value == "::") = false :=
    beq_eq_false_iff_ne.mpr (value_ne sees.previous sees.simplePrevious)
  have noList : cursor.enclosing.opens .withColumns = false := encloses_eq_false sees.here sees.simpleHere (by decide)
  have noTable : cursor.enclosing.opens .createTableColumns = false :=
    encloses_eq_false sees.here sees.simpleHere (by decide)
  simp only [Column.isExcluded, isDot, isLeftParen, isRightParen, isWord, sees.next, sees.previous, free, unit, noCast,
    sees.index, noList, noTable, Bool.or_false, Option.any_some]

/-- A mention of a column is told from its place. -/
theorem mention? (aliasNames : List String) {declared : List Nat}
    (told : declared.contains place.before.length = place.declares) :
    Column.mention? aliasNames declared cursor = place.mention? aliasNames := by
  have noWildcard : cursor.isWildcard = false := isWildcard_eq_false sees.here sees.simpleHere
  unfold Column.mention? Place.mention? Place.isColumn
  rw [if_neg (by simp [noWildcard]), sees.isName, sees.section?, sees.dottedName]
  by_cases name : place.here.isName = true
  · rw [sees.isExcluded declared name, name, told]
    cases place.next.any Sign.isDot <;> cases place.next.any Sign.opens <;>
      cases place.previous.any (Sign.isWord "AS") <;>
      cases place.previous.any Sign.closes <;> cases place.declares <;>
        cases Keyword.precedesColumns place.clause <;> simp
  · simp [name]

theorem isAliasWithoutAs : AliasDeclaration.isAliasWithoutAs cursor = (place.here.isName && place.clause == "SELECT"
    && place.endsItem && place.previous.any Sign.isName) := by
  have ends : (cursor.next.isEmpty || cursor.next.isComma || cursor.next.isWord "FROM" || cursor.next.closes .subquery
      || cursor.next.closes .columnDefinition || cursor.next.closes .withQuery) = place.endsItem := by
    have noDefinition : cursor.next.closes .columnDefinition = false :=
      closes_eq_false sees.next sees.simpleNext (by decide)
    rw [isComma, isWord, noDefinition, Cursor.closes, Cursor.closes, paren?, sees.next, Bool.or_false, Place.endsItem]
    cases found : place.next with
    | none => rw [sees.ends found, Bool.true_or, Bool.true_or, Bool.true_or, Bool.true_or]; rfl
    | some after =>
      rw [isEmpty_of_sign? (sees.next.trans found)]
      simp
  have follows : (cursor.previous.isName || cursor.previous.isLiteral || cursor.previous.closes .nestedFunction
      || cursor.previous.closes .columnDefinition || cursor.previous.isWord "END") =
          place.previous.any Sign.isName := by
    simp only [Places.isName, sees.previous, isLiteral_eq_false sees.previous sees.simplePrevious,
      closes_eq_false sees.previous sees.simplePrevious (show ParenKind.nestedFunction ≠ .subquery ∧ _ by decide),
      closes_eq_false sees.previous sees.simplePrevious (show ParenKind.columnDefinition ≠ .subquery ∧ _ by decide),
      isWord_eq_false sees.previous sees.simplePrevious (show "END" ∉ _ by decide), Bool.or_false]
  have outer : cursor.isInNestedFunction = false := encloses_eq_false sees.here sees.simpleHere (by decide)
  simp only [AliasDeclaration.isAliasWithoutAs, ends, follows, outer, sees.isName, sees.lastKeyword, Bool.not_false,
    Bool.and_true]

/-- So is the declaration of an alias. -/
theorem isExpressionAlias : AliasDeclaration.isExpressionAlias cursor = place.declares := by
  have noUsing : (place.clause != "USING") = true := bne_iff_ne.mpr (sees.clause_ne (.inr rfl))
  have outer : cursor.isInNestedFunction = false := encloses_eq_false sees.here sees.simpleHere (by decide)
  simp only [AliasDeclaration.isExpressionAlias, sees.isAliasWithoutAs, sees.isName, isDot,
    isLeftParen, isWord, sees.next, sees.previous, sees.lastKeyword, noUsing, Cursor.isInTypeCast, outer,
    closes_eq_false sees.previous sees.simplePrevious (show ParenKind.nestedFunction ≠ .subquery ∧ _ by decide),
    closes_eq_false sees.previous sees.simplePrevious (show ParenKind.columnDefinition ≠ .subquery ∧ _ by decide),
    Place.declares, Bool.and_true, Bool.or_false, Bool.false_and, Bool.not_false]
  cases place.here.isName <;> simp

/-- And the name of a table. -/
theorem table? : Table.name? cursor = place.table? := by
  have noExists : cursor.previous.isWord "EXISTS" = false :=
    isWord_eq_false sees.previous sees.simplePrevious (by decide)
  have value : cursor.value = place.here.lexeme.value := by
    rw [Places.value, sees.here]
    rfl
  have before : cursor.previous.normalized = (place.previous.map (·.normalized)).getD "" := by
    rw [normalized, sees.previous]
  unfold Table.name? Place.table?
  by_cases name : place.here.isName = true
  · have listed :
        Table.isInColumnList cursor = (place.here.outside && place.here.around != some ⟨.subquery, .opening⟩) :=
      isInColumnList sees.here ((sees.simpleHere place.here rfl).name name).2
    simp only [isDot, isRightParen, isWord, isPunctuation, sees.next, sees.previous, sees.isName,
      sees.lastKeyword, listed, sees.dottedName, value, before] at noExists ⊢
    simp only [noExists, Bool.or_false]
  · simp [sees.isName, name]

end Sees

/-- The signs of a statement, which are all simple. -/
structure Signed (sequence : TokenSequence) (signs : List Sign) : Prop where
  sign? : ∀ index, (sequence.cursor index).sign? = signs[index]?
  simple : ∀ sign ∈ signs, sign.Simple

/-- A place among the signs of a statement. -/
def Among (signs : List Sign) (place : Place) : Prop := signs = place.before.reverse ++ place.here :: place.after

section Statement

variable {sequence : TokenSequence} {signs : List Sign} (signed : Signed sequence signs)
include signed

theorem size_eq : sequence.size = signs.length := by
  have same (index : Nat) : sequence.size ≤ index ↔ signs.length ≤ index := by
    have told : (sequence.cursor index).token?.map _ = signs[index]? := signed.sign? index
    rw [Cursor.token?_cursor] at told
    rw [TokenSequence.size, ← Array.getElem?_eq_none_iff, ← List.getElem?_eq_none_iff, ← told, Option.map_eq_none_iff]
  exact Nat.le_antisymm ((same _).mpr (Nat.le_refl _)) ((same _).mp (Nat.le_refl _))

theorem simple_sign? (index : Nat) : ∀ sign ∈ (sequence.cursor index).sign?, sign.Simple := fun sign member =>
  signed.simple sign (List.mem_of_getElem? ((signed.sign? index).symm.trans member))

/-- What is asked of every cursor is asked of every place. -/
theorem filterMap_places {α : Type} {ofCursor : Cursor → Option α} {ofPlace : Place → Option α}
    (same : ∀ place, Among signs place → ofCursor (sequence.cursor place.before.length) = ofPlace place) :
    sequence.cursors.filterMap ofCursor = (places [] signs []).filterMap ofPlace := by
  have general (before rest : List Sign) (whole : signs = before.reverse ++ rest) :
      ((List.range' before.length rest.length).map sequence.cursor).filterMap ofCursor =
        (places before rest []).filterMap ofPlace := by
    induction rest generalizing before with
    | nil => rfl
    | cons here rest ih =>
      have later := ih (here :: before) (by rw [whole, List.reverse_cons, List.append_assoc]; rfl)
      have now := same ⟨before, here, rest ++ []⟩ (by rw [Among, whole, List.append_nil])
      rw [List.length_cons, List.range'_succ, List.map_cons, places, List.filterMap_cons, List.filterMap_cons]
      simp only at now
      rw [now, ← later, List.length_cons]
  rw [Cursor.cursors_eq_map, size_eq signed, List.range_eq_range']
  exact general [] signs rfl

variable {place : Place} (among : Among signs place)
include among

theorem here_eq : (sequence.cursor place.before.length).sign? = some place.here := by
  rw [signed.sign?, among, List.getElem?_append_right (by simp), List.length_reverse, Nat.sub_self]
  rfl

theorem next_eq : (sequence.cursor place.before.length).next.sign? = place.next := by
  have index : place.before.length + 1 - place.before.length = 1 := by omega
  rw [Cursor.next_cursor, signed.sign?, among, List.getElem?_append_right (by simp), List.length_reverse, index,
    Place.next, List.head?_eq_getElem?]
  rfl

theorem inside : place.before.length < sequence.size := by
  rw [size_eq signed, among, List.length_append, List.length_reverse, List.length_cons]
  omega

theorem previous_eq : (sequence.cursor place.before.length).previous.sign? = place.previous := by
  have here := inside signed among
  rw [Place.previous]
  cases before : place.before with
  | nil =>
    rw [List.length_nil, Cursor.cursor_of_lt (by rw [before] at here; exact here)]
    rfl
  | cons sign rest =>
    rw [before, List.length_cons] at here
    rw [List.length_cons, Cursor.previous_cursor here, signed.sign?, among, before,
      List.reverse_cons, List.append_assoc, List.getElem?_append_right (by simp), List.length_reverse, Nat.sub_self]
    rfl

omit among in
private theorem nameParts_eq (before : List Sign) (here : Sign) (after : List Sign)
    (among : signs = before.reverse ++ here :: after) :
    Cursor.nameParts sequence before.length = Place.nameParts before here := by
  have value (before : List Sign) (here : Sign) (after : List Sign) (among : signs = before.reverse ++ here :: after) :
      (sequence.cursor before.length).value = here.lexeme.value := by
    rw [Places.value, here_eq signed (show Among signs ⟨before, here, after⟩ from among)]
    rfl
  have pair (before : List Sign) (name dot here : Sign) (after : List Sign)
      (among : signs = (dot :: name :: before).reverse ++ here :: after) :
      signs = before.reverse ++ name :: dot :: here :: after ∧
        (sequence.cursor (before.length + 1)).isDot = dot.isDot ∧
            (sequence.cursor before.length).isName = name.isName := by
    have first : signs = before.reverse ++ name :: dot :: here :: after := by rw [among]; simp
    have middle : signs = (name :: before).reverse ++ dot :: here :: after := by rw [among]; simp
    refine ⟨first, ?_, ?_⟩
    · rw [Places.isDot, show before.length + 1 = (name :: before).length from rfl,
        here_eq signed (show Among signs ⟨name :: before, dot, here :: after⟩ from middle)]
      rfl
    · rw [Places.isName, here_eq signed (show Among signs ⟨before, name, dot :: here :: after⟩ from first)]
      rfl
  fun_induction Place.nameParts before here generalizing after with
  | case1 dot name before here dotted ih =>
    obtain ⟨first, isDot, isName⟩ := pair before name dot here after among
    rw [List.length_cons, List.length_cons, Cursor.nameParts, isDot, isName, if_pos dotted, ih _ first]
    exact congrArg (Place.nameParts before name ++ [·]) (value (dot :: name :: before) here after among)
  | case2 dot name before here undotted =>
    obtain ⟨-, isDot, isName⟩ := pair before name dot here after among
    rw [List.length_cons, List.length_cons, Cursor.nameParts, isDot, isName, if_neg undotted]
    exact congrArg ([·]) (value (dot :: name :: before) here after among)
  | case3 single here => exact congrArg ([·]) (value [single] here after among)
  | case4 here => exact congrArg ([·]) (value [] here after among)

/-- The cursor at a place. -/
theorem sees_place : Sees (sequence.cursor place.before.length) place where
  here := here_eq signed among
  next := next_eq signed among
  ends last := by
    have index : sequence.size ≤ place.before.length + 1 := by
      rw [size_eq signed, among, List.head?_eq_none_iff.mp last]
      simp
    rw [Cursor.next_cursor, TokenSequence.cursor, if_neg (Nat.not_lt.mpr index)]
    rfl
  previous := previous_eq signed among
  index := by rw [Cursor.cursor_of_lt (inside signed among)]
  dottedName := by
    rw [Cursor.dottedName, Cursor.cursor_of_lt (inside signed among), Place.dottedName]
    exact congrArg (String.intercalate ".") (nameParts_eq signed place.before place.here place.after among)
  simple sign member := by
    refine signed.simple sign ?_
    rw [among]
    rcases member with rfl | before | after
    · exact List.mem_append_right _ List.mem_cons_self
    · exact List.mem_append_left _ (List.mem_reverse.mpr (List.mem_of_mem_head? before))
    · exact List.mem_append_right _ (List.mem_cons_of_mem _ (List.mem_of_mem_head? after))

end Statement

theorem mem_places {signs : List Sign} {place : Place} (among : Among signs place) : place ∈ places [] signs [] := by
  have whole := places_append [] place.before.reverse (place.here :: place.after) []
  rw [List.reverse_reverse, List.append_nil] at whole
  rw [among, whole]
  refine List.mem_append_right _ ?_
  simp only [places, List.append_nil]
  exact List.mem_cons_self

/-- The places of signs come in the order of the signs. -/
theorem increasing (before rest after : List Sign) :
    (places before rest after).Pairwise (fun first second => first.before.length < second.before.length) ∧
      ∀ place ∈ places before rest after, before.length ≤ place.before.length := by
  induction rest generalizing before with
  | nil => exact ⟨List.Pairwise.nil, fun place member => nomatch member⟩
  | cons here rest ih =>
    obtain ⟨ordered, later⟩ := ih (here :: before)
    rw [places]
    refine ⟨List.pairwise_cons.mpr ⟨fun place member => ?_, ordered⟩, fun place member => ?_⟩
    · exact later place member
    · rcases List.mem_cons.mp member with rfl | inside
      · exact Nat.le_refl _
      · exact Nat.le_of_succ_le (later place inside)

theorem among_of_mem_places {before rest after : List Sign} {place : Place}
    (member : place ∈ places before rest after) :
    Among (before.reverse ++ (rest ++ after)) place := by
  induction rest generalizing before with
  | nil => cases member
  | cons here rest ih =>
    rcases List.mem_cons.mp member with rfl | inside
    · rfl
    · simpa using ih inside

theorem among_of_mem {signs : List Sign} {place : Place} (member : place ∈ places [] signs []) : Among signs place := by
  simpa using among_of_mem_places member

theorem among_unique {signs : List Sign} {place other : Place} (among : Among signs place) (also : Among signs other)
    (same : place.before.length = other.before.length) : place = other := by
  obtain ⟨before, rest⟩ := List.append_inj (among.symm.trans also) (by simpa using same)
  obtain ⟨here, after⟩ := List.cons.inj rest
  cases place
  cases other
  simp_all

/-- The aliases that are declared among signs. -/
def declarations (signs : List Sign) : List AliasDeclaration := (places [] signs []).filterMap Place.declaration?

theorem contains_declarations {signs : List Sign} {place : Place} (among : Among signs place) :
    ((declarations signs).map (·.position)).contains place.before.length = place.declares := by
  rw [Bool.eq_iff_iff, List.contains_iff_mem, declarations, List.mem_map]
  constructor
  · rintro ⟨declaration, member, same⟩
    obtain ⟨other, inside, told⟩ := List.mem_filterMap.mp member
    obtain ⟨declares, here⟩ := Option.ite_none_right_eq_some.mp told
    cases here
    rwa [among_unique among (among_of_mem inside) same.symm]
  · intro declares
    exact ⟨_, List.mem_filterMap.mpr ⟨place, mem_places among, if_pos declares⟩, rfl⟩

section Lists

variable {sequence : TokenSequence} {signs : List Sign} (signed : Signed sequence signs)
include signed

theorem mentions_eq (aliasNames : List String) :
    Column.mentions sequence aliasNames ((declarations signs).map (·.position)) =
      (places [] signs []).filterMap (Place.mention? aliasNames) :=
  filterMap_places signed fun _ among => (sees_place signed among).mention? aliasNames (contains_declarations among)

theorem names_eq (withNames : List String) : Table.names sequence withNames =
    (distinct ((places [] signs []).filterMap Place.table?)).filter (!withNames.contains ·) := by
  rw [Table.names, filterMap_places signed fun _ among => (sees_place signed among).table?]

theorem ofExpressions_eq {reserved : List String}
    (free : ∀ declaration ∈ declarations signs, declaration.name ∉ reserved) :
    AliasDeclaration.ofExpressions sequence reserved = declarations signs := by
  rw [AliasDeclaration.ofExpressions, List.filterMap_filter]
  refine filterMap_places signed fun place among => ?_
  have sees := sees_place signed among
  have value : (sequence.cursor place.before.length).value = place.here.lexeme.value := by
    rw [Places.value, sees.here]
    rfl
  rw [sees.isExpressionAlias, sees.index, sees.lastKeyword, value, Place.declaration?]
  cases declares : place.declares with
  | false => rfl
  | true =>
    have here : (⟨place.here.lexeme.value, place.before.length, Section.ofKeyword? place.clause, .expression⟩ :
        AliasDeclaration) ∈ declarations signs :=
      List.mem_filterMap.mpr ⟨place, mem_places among, by rw [Place.declaration?, if_pos declares]⟩
    simp [free _ here]

theorem declarations_eq {clause : WithClause} (unlisted : clause.columnLists = [])
    (free : ∀ declaration ∈ declarations signs, declaration.name ∉ clause.names ++ (Subquery.bodies sequence).keys) :
    Facts.declarations sequence clause = declarations signs := by
  rw [Facts.declarations, AliasDeclaration.ofTokens, ofExpressions_eq signed free, unlisted,
    List.flatMap_nil, List.append_nil]
  refine List.mergeSort_of_pairwise ((increasing [] signs []).1.filterMap _ fun first second before => ?_)
  intro declaration told other also
  obtain ⟨-, here⟩ := Option.ite_none_right_eq_some.mp told
  obtain ⟨-, there⟩ := Option.ite_none_right_eq_some.mp also
  cases here
  cases there
  exact decide_eq_true (Nat.le_of_lt before)

/-- No name in a place for tables is told to be an alias of one of them. -/
theorem aliases_eq {tables : List String} (none : ∀ place ∈ places [] signs [], place.here.isName = true →
    Keyword.precedesTables place.clause = true → ∃ sign rest, place.before = sign :: rest ∧ sign.isWord "AS" = false ∧
      String.intercalate "." (Place.nameParts rest sign) ∉ tables) : Table.aliases sequence tables = {} := by
  have nothing :
      sequence.cursors.filterMap (Table.alias? tables) = (places [] signs []).filterMap fun _ => Option.none := by
    refine filterMap_places signed fun place among => ?_
    have sees := sees_place signed among
    unfold Table.alias?
    rw [sees.isName, sees.lastKeyword]
    by_cases there : place.here.isName = true ∧ Keyword.precedesTables place.clause = true
    · obtain ⟨sign, rest, before, noAs, unknown⟩ := none place (mem_places among) there.1 there.2
      have earlier : Among signs ⟨rest, sign, place.here :: place.after⟩ := by
        rw [among, before]
        simp [Among]
      have dotted := (sees_place signed earlier).dottedName
      have previous : (sequence.cursor place.before.length).previous = sequence.cursor rest.length := by
        have here := inside signed among
        rw [before, List.length_cons] at here ⊢
        exact Cursor.previous_cursor here
      have found : (sequence.cursor rest.length).isWord "AS" = false := by
        rw [isWord, (sees_place signed earlier).here, Option.any_some]
        exact noAs
      simp only [there.1, there.2, previous, found, dotted, Bool.not_true, Bool.or_self, Bool.false_eq_true, if_false]
      split
      · rfl
      · exact if_neg (by simpa [Place.dottedName] using unknown)
    · rw [not_and_or] at there
      rcases there with noName | noTable
      · simp [noName]
      · simp [noTable]
  rw [Table.aliases, nothing, List.filterMap_none]
  rfl

theorem withClause_eq (none : ∀ sign ∈ signs, sign.isWord "WITH" = false) : WithClause.ofTokens sequence = .ok {} := by
  have empty : sequence.cursors.filter WithClause.isHeader = [] := by
    refine List.filter_eq_nil_iff.mpr fun cursor member => ?_
    obtain ⟨index, -, rfl⟩ := Cursor.mem_cursors member
    rw [WithClause.isHeader, isWord, signed.sign?]
    cases found : signs[index]? with
    | none => simp
    | some sign => simp [none sign (List.mem_of_getElem? found)]
  rw [WithClause.ofTokens, empty]
  rfl

theorem kind_eq {first : Sign} {rest : List Sign} (starts : signs = first :: rest)
    (known : first.normalized = "SELECT" ∨ first.normalized = "WITH") (noParen : first.lexeme.value ≠ "(") :
    StatementKind.ofTokens sequence = .ok .select := by
  have here := signed.sign? 0
  rw [starts, Cursor.sign?, Cursor.token?_cursor] at here
  obtain ⟨token, found, told⟩ := Option.map_eq_some_iff.mp here
  have value : token.value = first.lexeme.value := congrArg (·.lexeme.value) told
  have word : token.normalized = first.normalized := congrArg (·.normalized) told
  rw [← Array.getElem?_toList] at found
  cases whole : sequence.tokens.toList with
  | nil => rw [whole] at found; cases found
  | cons head tail =>
    rw [whole] at found
    obtain rfl : head = token := Option.some.inj found
    have unparenthesized : (head :: tail).dropWhile (·.value == "(") = head :: tail :=
      List.dropWhile_cons_of_neg (by simpa [value] using noParen)
    rw [StatementKind.ofTokens, whole, unparenthesized, List.map_cons, word]
    rcases known with same | same <;> (rw [same]; rfl)

end Lists

end QueryFacts.Proofs.Places

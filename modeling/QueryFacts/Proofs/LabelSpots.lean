import QueryFacts.Proofs.Clauses
import QueryFacts.Proofs.ColumnSpots

/-! The aliases that a select list declares, as its lexemes show them, and the columns of the items
in front of them. A name is declared after AS, or between an expression and the end of its item. -/

namespace QueryFacts
open Lexeme

namespace Spot

/-- Among the arguments of a cast. -/
def isInTypeCast (spot : Spot) : Bool :=
  spot.isIn .nestedFunction && spot.opener.any fun word => Keyword.isTypeCast word.normalized

/-- The item of a select list ends after it. -/
def endsProjection (spot : Spot) : Bool :=
  spot.next.all fun next => next.isPunctuation "," || next.reads "FROM"
    || (next.isPunctuation ")" && (spot.isIn .subquery || spot.isIn .columnDefinition || spot.isIn .withQuery))

/-- A name that an alias is declared by, unless a closing parenthesis stands before it. -/
def declares (spot : Spot) : Bool :=
  spot.here.isName && !spot.next.any isDot && !spot.next.any (·.isPunctuation "(") &&
    Keyword.precedesColumns spot.clause
    && spot.clause != "USING"
    && ((spot.previous.any (reads "AS") && !spot.isInTypeCast)
      || (spot.clause == "SELECT" && !spot.isIn .nestedFunction && spot.endsProjection
        && spot.previous.any fun last => last.isName || last.kind == .literal || last.reads "END"))

/-- No parenthesis ends in front of a name in a place for columns. -/
def Apart (spot : Spot) : Prop :=
  spot.here.isName = true → Keyword.precedesColumns spot.clause = true → spot.previous.any (·.isPunctuation ")") = false

def declaration? (spot : Spot) : Option AliasDeclaration :=
  if spot.declares then
    some ⟨spot.here.value, spot.before.length, Section.ofKeyword? spot.clause, .expression⟩ else none

end Spot

/-- An item may begin after the lexeme, unless it stands in a parenthesis. -/
def Lexeme.separates (before : List Lexeme) (here : Lexeme) : Bool :=
  (openings before).isEmpty && (here.isPunctuation "," || (here.isKeyword && Keyword.precedesColumns here.normalized))

namespace AliasDeclaration.Scope

/-- The columns that a scope knows of at a lexeme among others. -/
def columnsAt (scope : Scope) (before : List Lexeme) (here : Lexeme) (next : Option Lexeme) : List String :=
  let spelled := nameBefore (here :: before)
  if !next.any isDot && (here.isName || here.isWildcard)
      && (here.isWildcard || scope.known.contains spelled || scope.names.contains spelled) then
    (scope.known.find? spelled).getD [spelled]
  else []

/-- The columns of the item that ends with these lexemes, which come nearest first. -/
def itemBefore (scope : Scope) (next : Option Lexeme) : List Lexeme → List String
  | [] => []
  | here :: before =>
    if here.separates before then [] else itemBefore scope (some here) before ++ scope.columnsAt before here next

end AliasDeclaration.Scope

end QueryFacts

namespace QueryFacts.Proofs.LabelSpots
open Lexeme NestingRun Signs Spots ColumnSpots

section Order

variable {context : Context} {before part after : List Lexeme} {lexemes : List Lexeme}

theorem increasing :
    (spots context before part after).Pairwise (fun first second => first.before.length < second.before.length) ∧
    ∀ spot ∈ spots context before part after, before.length ≤ spot.before.length := by
  induction part generalizing context before with
  | nil => exact ⟨List.Pairwise.nil, fun spot member => nomatch member⟩
  | cons here part ih =>
    obtain ⟨ordered, later⟩ := @ih (context.step here) (here :: before)
    refine ⟨List.pairwise_cons.mpr ⟨fun spot member => ?_, ordered⟩, fun spot member => ?_⟩
    · exact later spot member
    · rcases List.mem_cons.mp member with rfl | inside
      · exact Nat.le_refl _
      · exact Nat.le_of_succ_le (later spot inside)

theorem within_of_mem {spot : Spot} (member : spot ∈ spots (Context.start lexemes) [] lexemes []) :
    Within lexemes spot := by
  have general
      (before part : List Lexeme) (inside : spot ∈ spots ((Context.start lexemes).after before.reverse) before part [])
      (whole : lexemes = before.reverse ++ part) : Within lexemes spot := by
    induction part generalizing before with
    | nil => cases inside
    | cons here part ih =>
      rcases List.mem_cons.mp inside with rfl | later
      · exact ⟨by rw [whole, List.append_nil], rfl⟩
      · refine ih (here :: before) ?_ (by rw [whole, List.reverse_cons, List.append_assoc]; rfl)
        rwa [List.reverse_cons, Context.after_append]
  exact general [] lexemes member rfl

theorem within_unique {spot other : Spot} (within : Within lexemes spot) (also : Within lexemes other)
    (same : spot.before.length = other.before.length) : spot = other := by
  obtain ⟨before, rest⟩ := List.append_inj (within.whole.symm.trans also.whole) (by simpa using same)
  obtain ⟨here, after⟩ := List.cons.inj rest
  have context : spot.context = other.context := by rw [within.context, also.context, before]
  cases spot
  cases other
  simp_all

end Order

section Declarations

variable {limits : Limits} {lexemes : List Lexeme} {sequence : TokenSequence}
    (annotated : annotate limits lexemes = .ok sequence)
include annotated

section Spot

variable {spot : Spot} (within : Within lexemes spot)
include within

/-- After a name a parenthesis closes that is open around it. -/
theorem closes_next (bare : spot.here.side? = none) (kind : ParenKind) :
    (sequence.cursor spot.before.length).next.closes kind =
        (spot.next.any (·.isPunctuation ")") && spot.isIn kind) := by
  obtain ⟨context, before, here, after⟩ := spot
  rw [Cursor.next_cursor, Cursor.closes, Places.paren?]
  cases after with
  | nil =>
    have nothing : (sequence.cursor (before.length + 1)).sign? = none := by
      rw [sign?_cursor annotated, List.getElem?_eq_none_iff]
      have length := congrArg List.length (Context.lexemes_signs (Context.start lexemes) lexemes)
      rw [List.length_map] at length
      rw [length, within.whole]
      simp
    rw [nothing]
    rfl
  | cons next rest =>
    have whole : lexemes = (here :: before).reverse ++ next :: rest := by rw [within.whole]; simp
    have opened : ((Context.start lexemes).after (here :: before).reverse).opened = context.opened := by
      rw [List.reverse_cons, Context.after_append, ← within.context]
      exact Clauses.opened_step bare
    have found := sign?_here annotated whole
    rw [List.length_cons] at found
    have shown : Spot.next ⟨context, before, here, next :: rest⟩ = some next := rfl
    rw [found, Option.bind_some, shown, Option.any_some]
    unfold Context.sign Spot.isIn
    rw [opened]
    cases side : next.side? with
    | none =>
      have other : next.isPunctuation ")" = false := by simpa using (side?_eq_none.mp side).2
      rw [other]
      rfl
    | some turn =>
      cases turn with
      | opening =>
        have other : next.isPunctuation ")" = false := by
          rw [Bool.eq_false_iff]
          intro closing
          cases side.symm.trans (side?_eq_closing.mpr closing)
        simp [other]
      | closing =>
        rw [side?_eq_closing.mp side]
        cases context.opened with
        | nil => rfl
        | cons frame outer => cases kind <;> cases same : frame.kind <;> simp [same]

theorem isInTypeCast_eq (bare : spot.here.side? = none) :
    (sequence.cursor spot.before.length).isInTypeCast = spot.isInTypeCast := by
  have opener := shows_opener annotated within.whole (by rw [bare]; nofun)
  have word : Keyword.isTypeCast (sequence.cursor spot.before.length).enclosing.previous.normalized =
      spot.opener.any fun word => Keyword.isTypeCast word.normalized := by
    rw [opener.normalized]
    unfold Spot.opener
    cases (openings spot.before).head?.bind List.head? <;> rfl
  rw [Cursor.isInTypeCast, Cursor.isInNestedFunction, opens_eq annotated within bare, word]
  rfl

/-- The end of an item is told from what comes next. -/
theorem endsProjection_eq (bare : spot.here.side? = none) :
    ((sequence.cursor spot.before.length).next.isEmpty || (sequence.cursor spot.before.length).next.isComma
      || (sequence.cursor spot.before.length).next.isWord "FROM" ||
        (sequence.cursor spot.before.length).next.closes .subquery
      || (sequence.cursor spot.before.length).next.closes .columnDefinition
      || (sequence.cursor spot.before.length).next.closes .withQuery) = spot.endsProjection := by
  have next := shows_next annotated within.whole
  have comma : (sequence.cursor spot.before.length).next.isComma = spot.next.any (·.isPunctuation ",") := by
    rw [Cursor.isComma, next.kind, next.value, Spot.next]
    cases spot.after.head? <;> rfl
  rw [closes_next annotated within bare, closes_next annotated within bare,
    closes_next annotated within bare, next.isWord, comma]
  unfold Spot.endsProjection Spot.next
  cases found : spot.after.head? with
  | none =>
    have last : (sequence.cursor spot.before.length).next.isEmpty = true := by
      have size : sequence.size ≤ spot.before.length + 1 := by
        rw [size_of_annotated annotated, within.whole, List.head?_eq_none_iff.mp found]
        simp
      rw [Cursor.next_cursor, TokenSequence.cursor, if_neg (Nat.not_lt.mpr size)]
      rfl
    simp [last]
  | some lexeme =>
    have more : (sequence.cursor spot.before.length).next.isEmpty = false := by
      have kind := next.kind
      rw [found] at kind
      unfold Cursor.kind? Cursor.token? at kind
      unfold Cursor.isEmpty
      cases index : (sequence.cursor spot.before.length).next.index with
      | none => rw [index] at kind; cases kind
      | some index => rfl
    simp only [more, Option.any_some, Option.all_some, Bool.false_or]
    cases lexeme.isPunctuation ")" <;> simp [Bool.or_assoc]

theorem isExpressionAlias_eq (apart : spot.Apart) :
    AliasDeclaration.isExpressionAlias (sequence.cursor spot.before.length) = spot.declares := by
  have next := shows_next annotated within.whole
  have previous := shows_previous annotated within.whole
  have named : (sequence.cursor spot.before.length).isName = spot.here.isName :=
    (shows_here annotated within.whole).isName
  cases columns : Keyword.precedesColumns spot.clause with
  | false => simp [AliasDeclaration.isExpressionAlias, lastKeyword_eq annotated within, columns, Spot.declares]
  | true =>
  cases name : spot.here.isName with
  | false => simp [AliasDeclaration.isExpressionAlias, named, name, Spot.declares]
  | true =>
    have bare : spot.here.side? = none := side?_of_name name
    have closes (kind : ParenKind) : (sequence.cursor spot.before.length).previous.closes kind = false := by
      rw [Bool.eq_false_iff]
      intro closed
      have right := isRightParen_of_closes closed
      rw [previous.isRightParen] at right
      exact Bool.false_ne_true ((apart name columns).symm.trans right)
    have follows :
        ((sequence.cursor spot.before.length).previous.isName || (sequence.cursor spot.before.length).previous.isLiteral
        || (sequence.cursor spot.before.length).previous.isWord "END") =
          spot.previous.any fun last => last.isName || last.kind == .literal || last.reads "END" := by
      rw [previous.isName, previous.isWord, Cursor.isLiteral, previous.kind, Spot.previous]
      cases spot.before.head? <;> rfl
    have unmarked : AliasDeclaration.isAliasWithoutAs (sequence.cursor spot.before.length) =
        (spot.clause == "SELECT" && !spot.isIn .nestedFunction && spot.endsProjection
          && spot.previous.any fun last => last.isName || last.kind == .literal || last.reads "END") := by
      have inCall : (sequence.cursor spot.before.length).isInNestedFunction = spot.isIn .nestedFunction :=
        opens_eq annotated within bare .nestedFunction
      simp only [AliasDeclaration.isAliasWithoutAs, endsProjection_eq annotated within bare,
        closes, Bool.or_false, follows, inCall, named, name, lastKeyword_eq annotated within, Bool.true_and]
    simp only [AliasDeclaration.isExpressionAlias, unmarked, closes, named, name, next.isDot, next.isLeftParen,
      lastKeyword_eq annotated within, previous.isWord, isInTypeCast_eq annotated within bare,
      Bool.or_false, Bool.true_and, Spot.declares]
    rfl

end Spot

variable (apart : ∀ spot, Within lexemes spot → spot.Apart) (bodiless : Subquery.bodies sequence = {})
include apart bodiless

theorem declarations_eq :
    Facts.declarations sequence {} = (spots (Context.start lexemes) [] lexemes []).filterMap Spot.declaration? := by
  have expressions : AliasDeclaration.ofExpressions sequence [] =
      (spots (Context.start lexemes) [] lexemes []).filterMap Spot.declaration? := by
    rw [AliasDeclaration.ofExpressions, List.filterMap_filter]
    refine filterMap_spots annotated fun spot within => ?_
    have value : (sequence.cursor spot.before.length).value = spot.here.value :=
      (shows_here annotated within.whole).value
    have index : (sequence.cursor spot.before.length).index = some spot.before.length :=
      congrArg Cursor.index (Cursor.cursor_of_lt (inside_of_split annotated within.whole))
    rw [isExpressionAlias_eq annotated within (apart spot within), value, index,
      lastKeyword_eq annotated within, Spot.declaration?]
    cases spot.declares <;> simp
  have reserved : WithClause.names {} ++ (Subquery.bodies sequence).keys = [] := by rw [bodiless]; rfl
  rw [Facts.declarations, AliasDeclaration.ofTokens, reserved, expressions]
  refine (congrArg (List.mergeSort · _) (List.append_nil _)).trans
    (List.mergeSort_of_pairwise (increasing.1.filterMap _ ?_))
  intro first second before declaration told other also
  obtain ⟨-, here⟩ := Option.ite_none_right_eq_some.mp told
  obtain ⟨-, there⟩ := Option.ite_none_right_eq_some.mp also
  cases here
  cases there
  exact decide_eq_true (Nat.le_of_lt before)

/-- The places of the declarations. -/
theorem contains_declarations {spot : Spot} (within : Within lexemes spot) :
    ((Facts.declarations sequence {}).map (·.position)).contains spot.before.length = spot.declares := by
  rw [Bool.eq_iff_iff, List.contains_iff_mem, declarations_eq annotated apart bodiless, List.mem_map]
  constructor
  · rintro ⟨declaration, member, same⟩
    obtain ⟨other, inside, told⟩ := List.mem_filterMap.mp member
    obtain ⟨declares, here⟩ := Option.ite_none_right_eq_some.mp told
    cases here
    rwa [within_unique within (within_of_mem inside) same.symm]
  · intro declares
    exact ⟨_, List.mem_filterMap.mpr ⟨spot, within.mem, if_pos declares⟩, rfl⟩

end Declarations

section Items

variable {limits : Limits} {lexemes : List Lexeme} {sequence : TokenSequence}
    (annotated : annotate limits lexemes = .ok sequence)
  {scope : AliasDeclaration.Scope} {before after : List Lexeme} {here : Lexeme}
include annotated

theorem isOutside_eq (whole : lexemes = before.reverse ++ here :: after) (bare : here.side? ≠ some .closing) :
    ((sequence.cursor before.length).enclosing.index == none) = (openings before).isEmpty := by
  rw [enclosing_eq annotated whole bare]
  cases opened : openings before with
  | nil => rfl
  | cons outer rest =>
    obtain ⟨opening, between, split⟩ := split_of_openings whole (by rw [opened]; rfl)
    rw [List.head?_cons, Option.map_some, Option.getD_some, Cursor.cursor_of_lt (inside_of_split annotated split)]
    rfl

theorem separates_eq (whole : lexemes = before.reverse ++ here :: after) :
    ((sequence.cursor before.length).enclosing.index == none && ((sequence.cursor before.length).isComma
      || ((sequence.cursor before.length).isKeyword &&
        Keyword.precedesColumns (sequence.cursor before.length).normalized))) =
        here.separates before := by
  have shown := shows_here annotated whole
  have keyword : (sequence.cursor before.length).isKeyword = here.isKeyword := by
    rw [Cursor.isKeyword, shown.kind]
    rfl
  have normalized : (sequence.cursor before.length).normalized = here.normalized := shown.normalized
  have comma : (sequence.cursor before.length).isComma = here.isPunctuation "," := shown.isComma
  rw [separates, keyword, normalized, comma]
  cases mark : here.isPunctuation "," || (here.isKeyword && Keyword.precedesColumns here.normalized) with
  | false => rw [Bool.and_false, Bool.and_false]
  | true =>
    have bare : here.side? ≠ some .closing := by
      intro closing
      have text := side?_eq_closing.mp closing
      rw [isPunctuation, Bool.and_eq_true, beq_iff_eq, beq_iff_eq] at text
      simp [isPunctuation, isKeyword, text.1, text.2] at mark
    rw [isOutside_eq annotated whole bare]

theorem columnsAt_eq (whole : lexemes = before.reverse ++ here :: after) :
    ([sequence.cursor before.length].filter scope.covers).flatMap scope.columnsOf =
        scope.columnsAt before here after.head? := by
  have shown := shows_here annotated whole
  have next := shows_next annotated whole
  have name : (sequence.cursor before.length).isName = here.isName := shown.isName
  have wildcard : (sequence.cursor before.length).isWildcard = here.isWildcard := by
    rw [Cursor.isWildcard, shown.kind]
    rfl
  have covers : scope.covers (sequence.cursor before.length) =
      (!after.head?.any isDot && (here.isName || here.isWildcard) &&
        (here.isWildcard || scope.known.contains (nameBefore (here :: before)) ||
          scope.names.contains (nameBefore (here :: before)))) := by
    rw [AliasDeclaration.Scope.covers, next.isDot, name, wildcard, dottedName_eq annotated whole]
  rw [AliasDeclaration.Scope.columnsAt, List.filter_cons, covers]
  split
  · rw [List.filter_nil, List.flatMap_singleton, AliasDeclaration.Scope.columnsOf, dottedName_eq annotated whole]
  · rfl

/-- The item in front of a label starts after the nearest lexeme that separates items. -/
theorem item_eq {separates : Nat → Bool} (tests : ∀ before here after, lexemes = before.reverse ++ here :: after →
      separates before.length = here.separates before) (whole : lexemes = before.reverse ++ after) :
    let first := ((Cursor.lastBelow separates before.length).map Nat.succ).getD 0
    first ≤ before.length ∧
      (((List.range' first (before.length - first)).map sequence.cursor).filter scope.covers).flatMap
      scope.columnsOf = scope.itemBefore after.head? before := by
  induction before generalizing after with
  | nil => exact ⟨Nat.le_refl 0, rfl⟩
  | cons here before ih =>
    have split : lexemes = before.reverse ++ here :: after := by rw [whole]; simp
    obtain ⟨below, columns⟩ := ih split
    rw [List.length_cons, Cursor.lastBelow, tests before here after split, AliasDeclaration.Scope.itemBefore]
    cases here.separates before with
    | true =>
      refine ⟨Nat.le_refl _, ?_⟩
      rw [if_pos rfl, Option.map_some, Option.getD_some, Nat.sub_self]
      rfl
    | false =>
      simp only [Bool.false_eq_true, if_false]
      generalize ((Cursor.lastBelow separates before.length).map Nat.succ).getD 0 = first at below columns
      refine ⟨Nat.le_succ_of_le below, ?_⟩
      have last : List.range' first (before.length + 1 - first) =
          List.range' first (before.length - first) ++ [before.length] := by
        rw [Nat.succ_sub below, List.range'_concat, Nat.one_mul, Nat.add_sub_cancel' below]
      rw [last, List.map_append, List.filter_append, List.flatMap_append, columns]
      exact congrArg _ (columnsAt_eq annotated split)

/-- A closing parenthesis is matched by one before it. -/
theorem matching_before {index : Nat} {kind : ParenKind} (closes : (sequence.cursor index).closes kind = true) :
    ∃ first, first < index ∧ (sequence.cursor index).matching.next = sequence.cursor (first + 1) := by
  rw [Cursor.closes, beq_iff_eq] at closes
  obtain ⟨token, found, paren⟩ := Option.bind_eq_some_iff.mp closes
  have stored : sequence.tokens[index]? = some token := Cursor.token?_cursor.symm.trans found
  have placed := (WellNested.annotate_wellNested annotated).placed index token stored
  have side : token.side? = some .closing := (placed.role .closing).mpr ⟨kind, paren⟩
  obtain ⟨first, matched⟩ := Option.isSome_iff_exists.mp (placed.partner.mp (by rw [side]; rfl))
  have cursor : (sequence.cursor index).matching =
      ⟨sequence, some first⟩ := by rw [Cursor.matching, found, Option.bind_some, matched]; rfl
  refine ⟨first, ?_, by rw [cursor]; rfl⟩
  rcases (placed.matching first).mp matched with pair | pair
  · have opens : sequence.sides[index]? = some (some .opening) := pair.opening
    rw [TokenSequence.sides, List.getElem?_map, Array.getElem?_toList, stored, Option.map_some, side] at opens
    cases opens
  · exact pair.ordered

/-- No query stands in a parenthesis that ends before a spot, if SELECT stands at most in front of all of them. -/
theorem queryless_before (whole : lexemes = before.reverse ++ here :: after)
    (free : ∀ lexeme ∈ before.dropLast, lexeme.reads "SELECT" = false)
    {index : Nat} (inside : index < before.length) {kind : ParenKind}
    (closes : (sequence.cursor index).closes kind = true) :
    (sequence.cursor index).matching.next.isWord "SELECT" = false := by
  obtain ⟨first, earlier, next⟩ := matching_before annotated closes
  have within : first + 1 < before.reverse.length := by
    rw [List.length_reverse]
    exact Nat.lt_of_le_of_lt earlier inside
  have found : lexemes[first + 1]? = before.dropLast.reverse[first]? := by
    rw [whole, List.getElem?_append_left within, ← List.tail_reverse, List.getElem?_tail]
  rw [next, (shows_cursor annotated (first + 1)).isWord, found]
  cases there : before.dropLast.reverse[first]? with
  | none => rfl
  | some lexeme => exact free lexeme (List.mem_reverse.mp (List.mem_of_getElem? there))

/-- What is named is no query in parentheses. -/
theorem queryless_second (whole : lexemes = before.reverse ++ here :: after)
    (second : before[1]?.any (·.isPunctuation ")") = false ∨
      ∀ lexeme ∈ before.dropLast, lexeme.reads "SELECT" = false) :
    ((sequence.cursor before.length).previous.previous.closes .columnDefinition &&
      (sequence.cursor before.length).previous.previous.matching.next.isWord "SELECT") = false := by
  rw [Bool.and_eq_false_imp]
  intro closes
  have paren := isRightParen_of_closes closes
  rw [(shows_second annotated whole).isRightParen] at paren
  have free := second.resolve_left (by rw [paren]; exact Bool.noConfusion)
  match before with
  | [] | [_] => cases paren
  | last :: mark :: rest =>
    obtain ⟨same, earlier⟩ := previous_of_split annotated whole
    obtain ⟨again, -⟩ := previous_of_split annotated earlier
    rw [same, again] at closes ⊢
    exact queryless_before annotated whole free (Nat.lt_of_succ_le (Nat.le_succ _)) closes

/-- The columns that a name outside of parentheses is declared for. -/
theorem expressionColumns_eq {spot : Spot} (within : Within lexemes spot) (bare : spot.here.side? = none)
    (level : openings spot.before = []) (apart : spot.previous.any (·.isPunctuation ")") = false)
    (second : spot.before[1]?.any (·.isPunctuation ")") = false ∨
      ∀ lexeme ∈ spot.before.dropLast, lexeme.reads "SELECT" = false) :
    scope.expressionColumns (sequence.cursor spot.before.length) =
        distinct (scope.itemBefore (some spot.here) spot.before) := by
  let previous := (sequence.cursor spot.before.length).previous
  have first : (previous.closes .columnDefinition && previous.matching.next.isWord "SELECT") = false := by
    rw [Bool.and_eq_false_imp]
    intro closes
    have paren := isRightParen_of_closes closes
    rw [(shows_previous annotated within.whole).isRightParen] at paren
    exact absurd (apart.symm.trans paren) Bool.false_ne_true
  have queryless : let last := if previous.isWord "AS" then previous.previous else previous
      (last.closes .columnDefinition && last.matching.next.isWord "SELECT") = false := by
    cases as : previous.isWord "AS" with
    | true => exact queryless_second annotated within.whole second
    | false => exact first
  have depth : (sequence.cursor spot.before.length).enclosing.index = none := by
    have outside := isOutside_eq annotated within.whole (by simp [bare])
    rw [level] at outside
    exact beq_iff_eq.mp outside
  have here : (sequence.cursor spot.before.length).index = some spot.before.length :=
    congrArg Cursor.index (Cursor.cursor_of_lt (inside_of_split annotated within.whole))
  let test := fun index => (Cursor.mk sequence (some index)).enclosing.index == none
    && ((Cursor.mk sequence (some index)).isComma || ((Cursor.mk sequence (some index)).isKeyword
      && Keyword.precedesColumns (Cursor.mk sequence (some index)).normalized))
  have tests (before : List Lexeme) (here : Lexeme) (after : List Lexeme)
      (whole : lexemes = before.reverse ++ here :: after) :
      test before.length = here.separates before := by
    rw [← separates_eq annotated whole, Cursor.cursor_of_lt (inside_of_split annotated whole)]
  obtain ⟨-, columns⟩ := @item_eq limits lexemes sequence annotated scope _ _ test tests within.whole
  rw [AliasDeclaration.Scope.expressionColumns, if_neg (Bool.eq_false_iff.mp queryless)]
  simp only [AliasDeclaration.Scope.itemColumns, Cursor.find, here, depth, Option.bind_some, Option.getD_some]
  rw [show (sequence.cursor spot.before.length).sequence = sequence from rfl, show (fun index => _) = test from rfl]
  refine congrArg distinct (Eq.trans ?_ columns)
  generalize Cursor.lastBelow test spot.before.length = start
  cases start <;> rfl

end Items

end QueryFacts.Proofs.LabelSpots

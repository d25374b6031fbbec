import QueryFacts.Proofs.Selections.Statement
import QueryFacts.Proofs.Unfolding

/-! The columns that the names in a select list stand for. A name stands for the columns of
the item in front of it, which is told from its place in a statement without parentheses. -/

namespace QueryFacts

namespace Place

/-- The places of the item in front of a name. -/
def item (place : Place) : List Place :=
  places (place.before.dropWhile (!·.separates))
    (place.before.takeWhile (!·.separates)).reverse (place.here :: place.after)

def covers (scope : AliasDeclaration.Scope) (place : Place) : Bool :=
  !place.next.any Sign.isDot && place.here.isName
    && (scope.known.contains place.dottedName || scope.names.contains place.dottedName)

def columnsOf (scope : AliasDeclaration.Scope) (place : Place) : List String :=
  (scope.known.find? place.dottedName).getD [place.dottedName]

/-- The columns of the item in front of a name. -/
def itemColumns (scope : AliasDeclaration.Scope) (place : Place) : List String :=
  distinct ((place.item.filter (covers scope)).flatMap (columnsOf scope))

end Place

namespace Proofs.Selections
open Text Lexeme Places Unfolding

/-- A statement without parentheses. -/
def Flat (sequence : TokenSequence) : Prop := ∀ index, (sequence.cursor index).enclosing.index = none

section Item

variable {sequence : TokenSequence} {all : List Sign} (signed : Signed sequence all) {scope : AliasDeclaration.Scope}

theorem map_places (before rest after : List Sign) :
    (places before rest after).map (fun place => sequence.cursor place.before.length) =
      (List.range' before.length rest.length).map sequence.cursor := by
  induction rest generalizing before with
  | nil => rfl
  | cons here rest ih =>
    rw [places, List.map_cons, ih, show (here :: rest).length = rest.length + 1 from rfl,
      List.range'_succ, List.map_cons]
    rfl

include signed

/-- All signs are simple, wherever a cursor comes from. -/
theorem simple_cursor {cursor : Cursor} (same : cursor.sequence = sequence) : ∀ sign ∈ cursor.sign?, sign.Simple := by
  intro sign found
  obtain ⟨token, stored, -⟩ := Option.map_eq_some_iff.mp found
  obtain ⟨index, here, there⟩ := Option.bind_eq_some_iff.mp stored
  rw [same] at there
  have reached : cursor = sequence.cursor index := by
    rw [Cursor.cursor_of_lt (Array.getElem?_eq_some_iff.mp there).1, ← same, ← here]
  exact simple_sign? signed index sign (reached ▸ found)

theorem covers_eq {place : Place} (among : Among all place) :
    scope.covers (sequence.cursor place.before.length) = place.covers scope := by
  have sees := sees_place signed among
  rw [AliasDeclaration.Scope.covers, isWildcard_eq_false sees.here sees.simpleHere, isDot, sees.next, sees.isName,
    sees.dottedName, Bool.or_false, Bool.false_or, Place.covers]

theorem columnsOf_eq {place : Place} (among : Among all place) :
    scope.columnsOf (sequence.cursor place.before.length) = place.columnsOf scope := by
  rw [AliasDeclaration.Scope.columnsOf, (sees_place signed among).dottedName, Place.columnsOf]

omit signed in
/-- The item in front of a name starts after the nearest sign that separates items. -/
theorem lastBelow_separates {test : Nat → Bool}
    (tests : ∀ before sign after, Among all ⟨before, sign, after⟩ → test before.length = sign.separates)
    {before after : List Sign} (whole : all = before.reverse ++ after) :
    ((Cursor.lastBelow test before.length).map Nat.succ).getD 0 = (before.dropWhile (!·.separates)).length := by
  induction before generalizing after with
  | nil => rfl
  | cons sign before ih =>
    have rest : all = before.reverse ++ sign :: after := by rw [whole]; simp
    rw [List.length_cons, Cursor.lastBelow, List.dropWhile_cons, tests before sign after rest]
    cases sign.separates with
    | true => rfl
    | false => exact ih rest

omit signed in
theorem among_item {place : Place} (among : Among all place) : ∀ other ∈ place.item, Among all other := by
  have whole : (place.before.dropWhile (!·.separates)).reverse ++ ((place.before.takeWhile (!·.separates)).reverse ++
      (place.here :: place.after)) = all := by
    rw [among, ← List.append_assoc, ← List.reverse_append, List.takeWhile_append_dropWhile]
  exact fun other member => whole ▸ among_of_mem_places member

omit signed in
theorem map_item (place : Place) : place.item.map (fun other => sequence.cursor other.before.length) =
    (List.range' (place.before.dropWhile (!·.separates)).length
      (place.before.length - (place.before.dropWhile (!·.separates)).length)).map sequence.cursor := by
  have parts := congrArg List.length (List.takeWhile_append_dropWhile (p := (!·.separates)) (l := place.before))
  rw [List.length_append] at parts
  rw [Place.item, map_places, List.length_reverse, ← parts, Nat.add_sub_cancel]

theorem itemColumns_eq (flat : Flat sequence) {place : Place} (among : Among all place) :
    scope.itemColumns (sequence.cursor place.before.length) = place.itemColumns scope := by
  have here : (sequence.cursor place.before.length).index = some place.before.length := (sees_place signed among).index
  have depth : (sequence.cursor place.before.length).enclosing.index = none := flat _
  let test := fun index => (Cursor.mk sequence (some index)).enclosing.index == none
    && ((Cursor.mk sequence (some index)).isComma || ((Cursor.mk sequence (some index)).isKeyword
      && Keyword.precedesColumns (Cursor.mk sequence (some index)).normalized))
  have tests (before : List Sign) (sign : Sign) (after : List Sign) (there : Among all ⟨before, sign, after⟩) :
      test before.length = sign.separates := by
    simp only [test, ← Cursor.cursor_of_lt (inside signed there), flat before.length, isComma, Cursor.isKeyword, kind?,
      Places.normalized, here_eq signed there]
    rfl
  have told : distinct (((place.item.map fun other => sequence.cursor other.before.length).filter scope.covers).flatMap
      scope.columnsOf) = place.itemColumns scope := by
    have same : place.item.filter (fun other => scope.covers (sequence.cursor other.before.length)) =
        place.item.filter (Place.covers scope) :=
      List.filter_congr fun other member => covers_eq signed (among_item among other member)
    rw [List.filter_map, List.flatMap_map]
    refine congrArg distinct ((congrArg (List.flatMap _) same).trans (List.flatMap_congr fun other member => ?_))
    exact columnsOf_eq signed (among_item among other (List.mem_filter.mp member).1)
  rw [map_item, ← lastBelow_separates tests among] at told
  simp only [AliasDeclaration.Scope.itemColumns, Cursor.find, here, depth, Option.bind_some, Option.getD_some]
  rw [show (sequence.cursor place.before.length).sequence = sequence from rfl, show (fun index => _) = test from rfl]
  generalize Cursor.lastBelow test place.before.length = start at told ⊢
  cases start with
  | none => exact told
  | some index => exact told

theorem expressionColumns_eq (flat : Flat sequence) {place : Place} (among : Among all place) :
    scope.expressionColumns (sequence.cursor place.before.length) = place.itemColumns scope := by
  let before := (sequence.cursor place.before.length).previous
  let last := if before.isWord "AS" then before.previous else before
  have same : last.sequence = sequence := by
    simp only [last]
    split <;> rfl
  have noQuery : last.closes .columnDefinition = false := closes_eq_false rfl (simple_cursor signed same) (by decide)
  rw [AliasDeclaration.Scope.expressionColumns, ← itemColumns_eq signed flat among]
  exact if_neg (by simp only [Bool.and_eq_true]; exact fun both => Bool.false_ne_true (noQuery.symm.trans both.1))

end Item

section Projection
open SelectList

variable {scope : AliasDeclaration.Scope} {around : Option ParenRole}

theorem item_eq {begin : Sign} (separates : begin.separates = true) {expression : List Sign}
    (within : ∀ sign ∈ expression, sign.separates = false) (front : List Sign) (here : Sign) (after : List Sign) :
    Place.item ⟨expression.reverse ++ begin :: front, here, after⟩ =
        places (begin :: front) expression (here :: after) := by
  have all : ∀ sign ∈ expression.reverse, (!sign.separates) = true := fun sign member => by
    rw [within sign (List.mem_reverse.mp member)]
    rfl
  rw [Place.item, List.takeWhile_append_of_pos all, List.dropWhile_append_of_pos all]
  simp [separates]

theorem itemColumns_single {begin : Sign} (separates : begin.separates = true) {expression : List Sign}
    (within : ∀ sign ∈ expression, sign.separates = false) {front after : List Sign} {here : Sign} {column : String}
    (only : ((places (begin :: front) expression (here :: after)).filter (Place.covers scope)).flatMap
      (Place.columnsOf scope) =
      [column]) : Place.itemColumns scope ⟨expression.reverse ++ begin :: front, here, after⟩ = [column] := by
  rw [Place.itemColumns, item_eq separates within, only]
  rfl

/-- Of a qualified column, only the end is covered. -/
theorem columns_qualified {qualifier column : String} {found : List String}
    (known : scope.known.find? (qualify qualifier column) = some found) {begin : Sign} (begins : Begins begin)
    (front : List Sign) {after : List Sign} (follows : ∀ sign ∈ after.head?, Follows sign) :
    ((places (begin :: front) ((columnLexemes (some qualifier) column).map (flatSign "SELECT" around)) after).filter
      (Place.covers scope)).flatMap (Place.columnsOf scope) = found := by
  let name := flatSign "SELECT" around (ofName qualifier true)
  let mark := flatSign "SELECT" around dot
  let place : Place := ⟨mark :: name :: begin :: front, flatSign "SELECT" around (ofName column false), after⟩
  have whole : places (begin :: front) ((columnLexemes (some qualifier) column).map (flatSign "SELECT" around)) after =
    [⟨begin :: front, name, mark :: place.here :: after⟩, ⟨name :: begin :: front, mark, place.here :: after⟩, place] :=
  rfl
  have dotted : place.dottedName = qualify qualifier column := dottedName_qualified begins front after
  have noDot : place.next.any Sign.isDot = false := by
    cases starts : after.head? with
    | none => rw [Place.next, starts]; rfl
    | some sign => rw [Place.next, starts]; exact (follows sign starts).isDot
  have first : ¬Place.covers scope ⟨begin :: front, name, mark :: place.here :: after⟩ := Bool.false_ne_true
  have second : ¬Place.covers scope ⟨name :: begin :: front, mark, place.here :: after⟩ := by
    simp [Place.covers, show mark.isName = false from rfl]
  have last : place.covers scope := by
    rw [Place.covers, noDot, dotted, NameMap.contains, known]
    rfl
  rw [whole, List.filter_cons_of_neg first, List.filter_cons_of_neg second,
    List.filter_cons_of_pos last, List.filter_nil, List.flatMap_singleton, Place.columnsOf,
    dotted, known, Option.getD_some]

/-- A name that a place declares, and the columns of the item in front of it. -/
def labelled (scope : AliasDeclaration.Scope) (place : Place) : Option (String × List String) :=
  if place.declares then some (place.here.lexeme.value, place.itemColumns scope) else none

/-- The label of an item stands for its column. -/
theorem labelled_projection {item : Projection} {qualifier : String} (qualified : item.qualifier = some qualifier)
    (known : scope.known.find? item.spelled = some [item.spelled]) {begin close : Sign}
    (starts : Starts begin) (ends : Ends close)
    (front rest : List Sign) : (places (begin :: front) ((projectionLexemes item).map (flatSign "SELECT" around))
      (close :: rest)).filterMap (labelled scope) = item.label.toList.map fun label =>
          (label.name, [item.spelled]) := by
  have spelled : item.spelled = qualify qualifier item.column := by rw [Projection.spelled, qualified]
  let column := (columnLexemes (some qualifier) item.column).map (flatSign "SELECT" around)
  let as := flatSign "SELECT" around (ofKeyword "AS" true)
  have within : ∀ sign ∈ column, sign.separates = false := by
    intro sign member
    simp only [column, columnLexemes, List.map_cons, List.map_nil, List.mem_cons, List.not_mem_nil, or_false] at member
    rcases member with rfl | rfl | rfl <;> rfl
  have undeclared (place : Place) (none : place.declares = false) : labelled scope place = Option.none := by
    rw [labelled, none]
    rfl
  have nothing (after : List Sign) : (places (begin :: front) column after).filterMap (labelled scope) = [] :=
    declarations_column undeclared "SELECT" (some qualifier) item.column starts.toBegins front after
  have found {after : List Sign} (follows : ∀ sign ∈ after.head?, Follows sign) :
      ((places (begin :: front) column after).filter (Place.covers scope)).flatMap (Place.columnsOf scope) =
          [item.spelled] := by
    rw [spelled] at known ⊢
    exact columns_qualified known starts.toBegins front follows
  rw [projectionLexemes, qualified, List.map_append, places_append, List.filterMap_append, nothing, List.nil_append]
  rcases item.label with _ | ⟨name, _ | _⟩
  · rfl
  · let place : Place := ⟨column.reverse ++ begin :: front, flatSign "SELECT" around (ofName name true), close :: rest⟩
    have declares : place.declares = true := declares_label rfl ⟨_, rfl, rfl⟩ ⟨close, rfl, ends⟩
    have columns : place.itemColumns scope = [item.spelled] :=
      itemColumns_single starts.separates within (found fun sign same => by cases same; exact ⟨rfl, rfl⟩)
    have told : labelled scope place = some (name, [item.spelled]) := by
      rw [labelled, declares, columns]
      rfl
    exact List.filterMap_cons_some told
  · let place : Place :=
      ⟨(column ++ [as]).reverse ++ begin :: front, flatSign "SELECT" around (ofName name true), close :: rest⟩
    have word : as.normalized = "AS" := ColumnListStatement.normalForm_as
    have labels : (as.isWord "AS" || as.isName) = true := by
      rw [Sign.isWord, word]
      rfl
    have noSeparator : as.separates = false := by
      rw [Sign.separates, word]
      rfl
    have declares : place.declares = true := declares_label rfl ⟨as, rfl, labels⟩ ⟨close, rfl, ends⟩
    have mark (front after : List Sign) : ¬Place.covers scope ⟨front, as, after⟩ := by
      rw [Place.covers, show as.isName = false from rfl, Bool.and_false, Bool.false_and]
      exact Bool.false_ne_true
    have columns : place.itemColumns scope = [item.spelled] := by
      refine itemColumns_single starts.separates (fun sign member => ?_) ?_
      · rcases List.mem_append.mp member with inside | last
        · exact within sign inside
        · exact List.mem_singleton.mp last ▸ noSeparator
      · rw [places_append, List.filter_append, List.flatMap_append,
          found (fun sign same => by cases same; exact ⟨rfl, rfl⟩), places_singleton,
          List.filter_cons_of_neg (mark _ _)]
        rfl
    have told : labelled scope place = some (name, [item.spelled]) := by
      rw [labelled, declares, columns]
      rfl
    exact (List.filterMap_cons_none (undeclared _ (declares_unnamed rfl))).trans (List.filterMap_cons_some told)

end Projection

section Flat
open Parenthesis NestingRun

/-- Without open parentheses nothing stands between parentheses. -/
theorem Reads.flat {limits : Limits} {lexemes : List Lexeme} {sequence : TokenSequence}
    (reads : Reads limits lexemes sequence)
    (shallow : Shallow (sides lexemes) 0) : Flat sequence := by
  intro index
  rw [Cursor.enclosing, Cursor.token?_cursor]
  cases stored : sequence.tokens[index]? with
  | none => rfl
  | some token =>
    refine ((WellNested.annotate_wellNested reads.annotated).placed index token stored).outside.mpr
      fun first last pair _ => ?_
    have opens := pair.opening
    rw [WellNested.sides_annotated reads.annotated] at opens
    have below := (shallow.inside first).1
    have above := (shallow.inside (first + 1)).2
    rw [List.take_add_one, opens, Option.toList_some, height_append, height_singleton] at above
    simp only [rise] at above
    omega

end Flat

section Targets

variable {tokens : TokenSequence} {scope : AliasDeclaration.Scope} {bodies : Bodies}

/-- A name that is declared for columns, with its target. -/
def labelTarget? (pair : String × List String) : Option (String × AliasTarget) :=
  (AliasDeclaration.target? pair.1 pair.2).map (pair.1, ·)

/-- Each name that is declared for columns gets its target, the first time that it has one. -/
theorem foldlM_addTarget {declarations : List AliasDeclaration} {pairs : List (String × List String)}
    (expressions : ∀ declaration ∈ declarations, declaration.kind = .expression)
    (told : declarations.map (fun declaration =>
      (declaration.name, scope.expressionColumns (tokens.cursor declaration.position))) = pairs)
      (aliases : NameMap AliasTarget) :
    declarations.foldlM (AliasDeclaration.addTarget tokens scope bodies) aliases =
      .ok ((pairs.filterMap labelTarget?).foldl (fun map (name, target) => map.insertNew name target) aliases) := by
  induction declarations generalizing pairs aliases with
  | nil =>
    obtain rfl := told
    rfl
  | cons declaration rest ih =>
    obtain rfl := told
    let columns := scope.expressionColumns (tokens.cursor declaration.position)
    let next := (AliasDeclaration.target? declaration.name columns).elim aliases (aliases.insertNew declaration.name)
    have step : AliasDeclaration.addTarget tokens scope bodies aliases declaration = .ok next := by
      have found : declaration.columns tokens scope bodies = .ok columns := by
        rw [AliasDeclaration.columns, expressions declaration List.mem_cons_self]
      rw [AliasDeclaration.addTarget, found]
      split
      next known =>
        simp only [next]
        cases AliasDeclaration.target? declaration.name columns with
        | none => rfl
        | some target => rw [Option.elim_some, NameMap.insertNew, if_pos known]
      next =>
        simp only [next, Except.map]
        cases AliasDeclaration.target? declaration.name columns <;> rfl
    rw [List.foldlM_cons, step]
    refine (ih (fun other member => expressions other (List.mem_cons_of_mem _ member)) rfl next).trans ?_
    rw [List.map_cons]
    cases target : AliasDeclaration.target? declaration.name columns with
    | none =>
      have same : next = aliases := by simp only [next, target, Option.elim_none]
      have nothing : labelTarget? (declaration.name, columns) = none := by rw [labelTarget?, target]; rfl
      rw [same, List.filterMap_cons_none nothing]
    | some found =>
      have same : next = aliases.insertNew declaration.name found := by simp only [next, target, Option.elim_some]
      have more :
          labelTarget? (declaration.name, columns) = some (declaration.name, found) := by rw [labelTarget?, target]; rfl
      rw [same, List.filterMap_cons_some more]
      rfl

end Targets

section Statement

variable {limits : Limits} {selection : Selection} {sequence : TokenSequence} {scope : AliasDeclaration.Scope}
  {bodies : Bodies} (standalone : Standalone limits selection sequence)

/-- The labels of a statement, each with the column that it is for. -/
def labels (items : List Projection) : List (String × String) :=
  items.flatMap fun item => item.label.toList.map fun label => (label.name, item.spelled)

include standalone

theorem Standalone.labels_eq (flat : selection.depth = 0)
    (qualified : ∀ item ∈ selection.items, ∃ qualifier, item.qualifier = some qualifier)
    (known : ∀ item ∈ selection.items, scope.known.find? item.spelled = some [item.spelled]) :
    (declarations (signs none none false true selection)).map (fun declaration =>
      (declaration.name, scope.expressionColumns (sequence.cursor declaration.position))) =
        (labels selection.items).map fun (name, column) => (name, [column]) := by
  have within : Flat sequence := standalone.reads.flat (flat ▸ shallow_lexemes selection true)
  have each : (places [] (signs none none false true selection) []).filterMap (labelled scope) =
      selection.items.flatMap fun item => item.label.toList.map fun label => (label.name, [item.spelled]) := by
    refine declarations_signs (fun place none => by rw [labelled, none]; rfl) ?_ none false true [] []
    intro item member around begin front close rest starts ends
    obtain ⟨qualifier, same⟩ := qualified item member
    exact labelled_projection same (known item member) starts ends front rest
  rw [declarations, List.map_filterMap]
  refine (List.filterMap_congr fun place member => ?_).trans (each.trans ?_)
  · have columns : scope.expressionColumns (sequence.cursor place.before.length) = place.itemColumns scope :=
      expressionColumns_eq standalone.signed within (among_of_mem member)
    rw [Place.declaration?, labelled]
    split
    · exact congrArg (fun columns => some (place.here.lexeme.value, columns)) columns
    · rfl
  · simp only [labels, List.map_flatMap, List.map_map]
    rfl

/-- Each label is an alias of its column. -/
theorem Standalone.targets (flat : selection.depth = 0)
    (qualified : ∀ item ∈ selection.items, ∃ qualifier, item.qualifier = some qualifier)
    (known : ∀ item ∈ selection.items, scope.known.find? item.spelled = some [item.spelled])
    (others : ∀ pair ∈ labels selection.items, pair.2 ≠ pair.1) :
    AliasDeclaration.targets (declarations (signs none none false true selection)) sequence scope bodies =
      .ok (NameMap.ofFirstPairs
          ((labels selection.items).map fun (name, column) => (name, AliasTarget.column column))) := by
  have expressions :
      ∀ declaration ∈ declarations (signs none none false true selection), declaration.kind = .expression := by
    intro declaration member
    obtain ⟨place, -, told⟩ := List.mem_filterMap.mp member
    obtain ⟨-, here⟩ := Option.ite_none_right_eq_some.mp told
    cases here
    rfl
  have targets : ((labels selection.items).map fun (name, column) => (name, [column])).filterMap labelTarget? =
      (labels selection.items).map fun (name, column) => (name, AliasTarget.column column) := by
    rw [List.filterMap_map, ← List.filterMap_eq_map]
    refine List.filterMap_congr fun pair member => ?_
    simp [labelTarget?, AliasDeclaration.target?, others pair member]
  have found := @foldlM_addTarget sequence scope bodies _ _ expressions (standalone.labels_eq flat qualified known) {}
  rwa [targets] at found

end Statement

end Proofs.Selections

end QueryFacts

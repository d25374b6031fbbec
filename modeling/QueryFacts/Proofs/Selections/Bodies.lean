import QueryFacts.Proofs.Selections.Extraction

/-! Statements in parentheses, as parts of any statement: where they begin and end, and how
they are written as queries of their own. -/

namespace QueryFacts.Proofs.Selections
open Lexeme SelectList ColumnListStatement

section Brackets
open Parenthesis NestingRun WellNested Signs DeclaredColumns

/-- A statement of these lexemes as it is annotated. -/
structure Reads (limits : Limits) (lexemes : List Lexeme) (sequence : TokenSequence) : Prop where
  annotated : annotate limits lexemes = .ok sequence
  usual : ∀ lexeme ∈ lexemes, Usual lexeme
  chain : lexemes.IsChain Adjacent

variable {limits : Limits} {lexemes : List Lexeme} {sequence : TokenSequence} (reads : Reads limits lexemes sequence)
include reads

variable {front inner rest : List Lexeme} (whole : lexemes = front ++ opening :: (inner ++ closing :: rest))
  {first last : Nat} (begins : front.length = first) (ends : first + inner.length + 1 = last)
include whole begins ends

theorem Reads.pair (balanced : Balanced (sides inner)) : sequence.Pair first last := by
  have same : sequence.sides =
      sides front ++ some ParenSide.opening :: (sides inner ++ some ParenSide.closing :: sides rest) := by
    rw [sides_annotated reads.annotated, whole]
    simp [sides, show opening.side? = some .opening from rfl, show closing.side? = some .closing from rfl]
  have length (lexemes : List Lexeme) : (sides lexemes).length = lexemes.length := List.length_map _
  have pair := pair_around (sides front) balanced (sides rest)
  rw [← same, length, length, begins, ends] at pair
  exact pair

/-- What stands between parentheses is written as it was read. -/
theorem Reads.write_eq : sequence.write first last = String.ofList (written inner) := by
  have between : (sequence.between first last).map lexemeOf = inner := by
    have found := map_between reads.annotated whole
    rwa [begins, ends] at found
  have member {lexeme : Lexeme} (inside : lexeme ∈ inner) : lexeme ∈ lexemes := by
    rw [whole]
    exact List.mem_append_right _ (List.mem_cons_of_mem _ (List.mem_append_left _ inside))
  have unquoted : ∀ token ∈ sequence.between first last, token.quote = none ∧ token.kind ≠ .literal :=
    fun token inside =>
    unquoted_of_usual (reads.usual _ (member (between ▸ List.mem_map_of_mem inside)))
  have chain : ((sequence.between first last).map lexemeOf).IsChain Adjacent := by
    have all := reads.chain
    rw [whole] at all
    rw [between]
    exact all.right_of_append.tail.left_of_append
  rw [TokenSequence.write, writeAfter_adjacent unquoted chain, between]

end Brackets

section Bodies
open Places

variable {limits : Limits} {lexemes : List Lexeme} {sequence : TokenSequence} {all : List Sign}
  (reads : Reads limits lexemes sequence) (signed : Signed sequence all) (same : all.map (·.lexeme) = lexemes)

theorem head_signs (selection : Selection) (outer : Option String) (around : Option ParenRole) (outside apart : Bool) :
    ∃ rest, signs outer around outside apart selection = headSign outer around outside apart :: rest := by
  cases selection <;> exact ⟨_, rfl⟩

/-- The sub-query that closes at a place. -/
def namedAt (sequence : TokenSequence) (place : Place) : Option (String × String) :=
  Subquery.named? (sequence.cursor place.before.length)

include signed in
theorem namedAt_none {place : Place} (among : Among all place) (other : place.here.paren ≠ some ⟨.subquery, .closing⟩) :
    namedAt sequence place = none := by
  have closes : (sequence.cursor place.before.length).closes .subquery = false := by
    rw [Cursor.closes, paren?, (sees_place signed among).here]
    exact beq_eq_false_iff_ne.mpr other
  simp [namedAt, Subquery.named?, closes]

include signed in
theorem named?_none {before rest after : List Sign} (whole : all = before.reverse ++ (rest ++ after))
    (other : ∀ sign ∈ rest, sign.paren ≠ some ⟨.subquery, .closing⟩) : (places before rest after).filterMap
      (namedAt sequence) = [] :=
  filterMap_among (fun _ among member => namedAt_none signed among (other _ member)) whole

include reads signed same in
/-- A statement in parentheses, somewhere in a larger one. -/
theorem bracketed {inner : Selection} {before after : List Sign} {kind : ParenKind} {clause : String}
    {around : Option ParenRole} {place : Place} (whole : all = before.reverse ++ openSign kind clause around ::
      (signs (some clause) (some ⟨kind, .opening⟩) true false inner ++
        closeSign kind (lastClause inner) around :: after))
    (closes : place = ⟨(signs (some clause) (some ⟨kind, .opening⟩) true false inner).reverse ++
      openSign kind clause around :: before, closeSign kind (lastClause inner) around, after⟩) :
    Among all place ∧ (sequence.cursor before.length).index = some before.length ∧
      (sequence.cursor before.length).matching = sequence.cursor place.before.length ∧
      (sequence.cursor place.before.length).matching = sequence.cursor before.length ∧
      (sequence.cursor before.length).next.normalized = "SELECT" ∧
      sequence.write before.length place.before.length = inner.text := by
  have among : Among all place := by
    rw [Among, whole, closes]
    simp
  have opens :
      Among all ⟨before, openSign kind clause around, signs (some clause) (some ⟨kind, .opening⟩) true false inner ++
    closeSign kind (lastClause inner) around :: after⟩ := whole
  have lexical : lexemes = before.reverse.map (·.lexeme) ++ opening :: (Selections.lexemes false inner ++
      closing :: after.map (·.lexeme)) := by
    rw [← same, whole, List.map_append, List.map_cons, List.map_append, List.map_cons, lexemes_signs]
    rfl
  have begins : (before.reverse.map (·.lexeme)).length = before.length := by simp
  have last : before.length + (Selections.lexemes false inner).length + 1 = place.before.length := by
    rw [← lexemes_signs inner (some clause) (some ⟨kind, .opening⟩) true false, closes]
    simp only [List.length_map, List.length_append, List.length_reverse, List.length_cons]
    omega
  have pair := reads.pair lexical begins last (shallow_lexemes inner false).balanced
  obtain ⟨forth, back⟩ := WellNested.matching_of_pair (WellNested.annotate_wellNested reads.annotated) pair
  have stored : place.before.length < sequence.size := Places.inside signed among
  refine ⟨among, ?_, forth, back, ?_, ?_⟩
  · rw [Cursor.cursor_of_lt (Nat.lt_trans pair.ordered stored)]
  · obtain ⟨rest, starts⟩ := head_signs inner (some clause) (some ⟨kind, .opening⟩) true false
    rw [Places.normalized, (sees_place signed opens).next]
    simp only [Place.next, starts]
    exact normalForm_select
  · rw [reads.write_eq lexical begins last, written_lexemes, String.ofList_toList]

include reads signed same in
/-- A sub-query with a name after it. -/
theorem named?_close {inner : Selection} {before after : List Sign} {clause : String}
    {around : Option ParenRole} {name : Sign}
    (whole : all = before.reverse ++ openSign .subquery clause around ::
      (signs (some clause) (some ⟨.subquery, .opening⟩) true false inner ++
        closeSign .subquery (lastClause inner) around :: name :: after)) (isName : name.isName = true) :
    namedAt sequence ⟨(signs (some clause) (some ⟨.subquery, .opening⟩) true false inner).reverse ++
      openSign .subquery clause around :: before, closeSign .subquery (lastClause inner) around, name :: after⟩ =
        some (name.lexeme.value, inner.text) := by
  let place : Place := ⟨(signs (some clause) (some ⟨.subquery, .opening⟩) true false inner).reverse ++
    openSign .subquery clause around :: before, closeSign .subquery (lastClause inner) around, name :: after⟩
  obtain ⟨among, first, -, matching, selects, write⟩ := bracketed reads signed same whole (show place = _ from rfl)
  have sees := sees_place signed among
  have closes : (sequence.cursor place.before.length).closes .subquery = true := by
    rw [Cursor.closes, paren?, sees.here]
    rfl
  have noAs : (sequence.cursor place.before.length).next.isWord "AS" = false := by
    rw [Places.isWord, sees.next]
    simp only [place, Place.next, List.head?_cons, Option.any_some, Sign.isWord, Bool.and_eq_false_iff]
    exact .inl (beq_eq_false_iff_ne.mpr (by rw [eq_of_beq isName]; decide))
  have named : (sequence.cursor place.before.length).next.isName = true := by
    rw [Places.isName, sees.next]
    exact isName
  have value : (sequence.cursor place.before.length).next.value = name.lexeme.value := by
    rw [Places.value, sees.next]
    rfl
  have known : ["SELECT", "WITH"].contains "SELECT" = true := by decide
  change Subquery.named? (sequence.cursor place.before.length) = _
  unfold Subquery.named?
  simp only [matching, noAs, Bool.false_eq_true, if_false, closes, selects, known, named, Bool.and_self,
    if_true, value, first, sees.index]
  exact congrArg (fun text => some (name.lexeme.value, text)) write

include reads signed same in
/-- The named statements in a part of a statement, inner ones first. -/
theorem bodies_signs {selection : Selection} {outer : Option String} {around : Option ParenRole} {outside apart : Bool}
    {before after : List Sign} (whole : all = before.reverse ++ (signs outer around outside apart selection ++ after)) :
    (places before (signs outer around outside apart selection) after).filterMap (namedAt sequence) =
        selection.bodies.map fun (name, inner) => (name, inner.text) := by
  induction selection generalizing outer around outside apart before after with
  | table item more name =>
    refine named?_none signed whole fun sign member => ?_
    simp only [signs, List.mem_cons, List.mem_append, List.mem_map, List.not_mem_nil, or_false] at member
    rcases member with rfl | ⟨lexeme, -, rfl⟩ | rfl | rfl <;> exact fun same => by cases same
  | join item more first second key =>
    refine named?_none signed whole fun sign member => ?_
    simp only [signs, List.mem_cons, List.mem_append, List.mem_map] at member
    rcases member with rfl | ⟨lexeme, -, rfl⟩ | rfl | rfl | rfl | rfl | rfl | ⟨lexeme, -, rfl⟩ <;>
      exact fun same => by cases same
  | nested item more inner name ih =>
    let start := headSign outer around outside apart :: ((listLexemes item more).map (flatSign "SELECT" around) ++
      [flatSign "SELECT" around (ofKeyword "FROM" true)])
    let open' := openSign .subquery "FROM" around
    let inside := signs (some "FROM") (some ⟨.subquery, .opening⟩) true false inner
    let close := closeSign .subquery (lastClause inner) around
    let last := flatSign "FROM" around (ofName name true)
    have parts : signs outer around outside apart (.nested item more inner name) =
        (start ++ [open']) ++ (inside ++ [close, last]) := by
      simp [signs, start, open', inside, close, last]
    rw [parts] at whole ⊢
    have nothing (after : List Sign) (rest : all = before.reverse ++ ((start ++ [open']) ++ after)) :
        (places before (start ++ [open']) after).filterMap (namedAt sequence) = [] := by
      refine named?_none signed rest fun sign member => ?_
      simp only [start, List.mem_cons, List.mem_append, List.mem_map, List.not_mem_nil, or_false] at member
      rcases member with (rfl | ⟨lexeme, -, rfl⟩ | rfl) | rfl <;> exact fun same => by cases same
    have within : all = (open' :: (start.reverse ++ before)).reverse ++ (inside ++ ([close, last] ++ after)) := by
      rw [whole]
      simp
    have closed : all = (start.reverse ++ before).reverse ++ open' :: (inside ++ close :: last :: after) := by
      rw [whole]
      simp
    have found : namedAt sequence ⟨inside.reverse ++ open' :: (start.reverse ++ before), close, [last] ++ after⟩ =
        some (name, inner.text) := named?_close reads signed same closed rfl
    have ends : (places (close :: (inside.reverse ++ open' :: (start.reverse ++ before))) [last] after).filterMap
        (namedAt sequence) = [] := by
      refine named?_none signed (by rw [whole]; simp) fun sign member => ?_
      obtain rfl := List.mem_singleton.mp member
      exact fun same => by cases same
    rw [places_append, List.filterMap_append, nothing _ (by rw [whole, List.append_assoc]), List.reverse_append,
      List.reverse_singleton, List.singleton_append, List.cons_append, places_append, List.filterMap_append, ih within,
      List.nil_append, places, List.filterMap_cons_some found, ends, Selection.bodies, List.map_append]
    rfl

end Bodies

end QueryFacts.Proofs.Selections

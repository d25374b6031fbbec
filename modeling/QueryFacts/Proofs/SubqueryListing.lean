import QueryFacts.Proofs.MeantColumns
import QueryFacts.Proofs.WellNested

/-! The named sub-queries of a statement. They are listed in the order in which their parentheses
close, so that inner ones come before outer ones, and of several with one name the list holds the
one that closes first. The list is built from left to right; what it holds up to a place is one
invariant, which a closing parenthesis either extends or leaves as it is. A search for opening
parentheses with a sort behind it comes to the same. -/

namespace QueryFacts.Subquery

/-- A name is right behind a place, or behind AS. -/
def NameBehind (sequence : TokenSequence) (place : Nat) (name : String) : Prop :=
  ∃ token : Token, token.kind = .name ∧ token.value = name ∧
    (sequence.tokens[place + 1]? = some token ∨
      ∃ word : Token, sequence.tokens[place + 1]? = some word ∧ word.kind = .keyword ∧ word.normalized = "AS" ∧
        sequence.tokens[place + 2]? = some token)

/-- The parentheses at two places belong together and hold a sub-query with a name. What is in
them starts with SELECT or WITH in its normal form. -/
structure Named (sequence : TokenSequence) (name : String) (first last : Nat) : Prop where
  pair : sequence.Pair first last
  role : sequence.role first = some ⟨.subquery, .opening⟩
  starts : ∃ token :
      Token, sequence.tokens[first + 1]? = some token ∧ (token.normalized = "SELECT" ∨ token.normalized = "WITH")
  behind : NameBehind sequence last name

/-- Of the sub-queries with a name, the one that closes first. -/
structure Listed (sequence : TokenSequence) (name : String) (first last : Nat) : Prop where
  named : Named sequence name first last
  earliest : ∀ other close, Named sequence name other close → last ≤ close

/-- A list of all named sub-queries, each name once with the text of the one that closes first, in
the order in which these close. -/
structure Listing (sequence : TokenSequence) (bodies : NameMap String) : Prop where
  complete : ∀ name, name ∈ bodies.keys ↔ ∃ first last, Named sequence name first last
  once : bodies.keys.Nodup
  texts : ∀ name body, (name, body) ∈ bodies.entries →
    ∃ first last, Listed sequence name first last ∧ body = sequence.write first last
  ordered : bodies.keys.Pairwise fun name other => ∀ first last opening closing,
    Listed sequence name first last → Listed sequence other opening closing → last < closing
  nested : ∀ inner outer first last opening closing, Listed sequence inner first last →
    Listed sequence outer opening closing →
    opening < first → last < closing → [inner, outer].Sublist bodies.keys

/-- The sub-query that a parenthesis opens, if it has a name: where it closes, its name and its text. -/
def openedAt? (opening : Cursor) : Option (Nat × String × String) :=
  let close := opening.matching
  let after := close.next
  let name := if after.isWord "AS" then after.next else after
  if opening.opens .subquery && ["SELECT", "WITH"].contains opening.next.normalized && name.isName then
    match opening.index, close.index with
    | some first, some last => some (last, name.value, close.sequence.write first last)
    | _, _ => none
  else none

/-- The sub-queries are found in the order in which they open, and put in the one in which they close. -/
def inClosingOrder (sequence : TokenSequence) : List (Nat × String × String) :=
  (sequence.cursors.filterMap openedAt?).mergeSort fun one other => decide (one.1 ≤ other.1)

end QueryFacts.Subquery

namespace QueryFacts.Proofs.SubqueryListing
open Subquery WellNested

variable {sequence : TokenSequence} (nested : sequence.WellNested) {first last : Nat} {name body : String}

section Closing

include nested in
private theorem exists_pair {place : Nat} {kind : ParenKind} {side : ParenSide}
    (stands : sequence.role place = some ⟨kind, side⟩) :
    ∃ other, sequence.Pair place other ∨ sequence.Pair other place := by
  obtain ⟨token, stored, paren⟩ := Option.bind_eq_some_iff.mp stands
  have placed := nested.placed place token stored
  have here := (placed.role side).mpr ⟨kind, paren⟩
  obtain ⟨other, matching⟩ := Option.isSome_iff_exists.mp (placed.partner.mp (by rw [here]; rfl))
  exact ⟨other, (placed.matching other).mp matching⟩

private theorem role_cursor {place : Nat} : (sequence.cursor place).paren? = sequence.role place := by
  rw [Cursor.paren?, Cursor.token?_cursor]
  rfl

include nested in
theorem opens_iff : (sequence.cursor first).opens .subquery = true ↔
    ∃ last, sequence.Pair first last ∧ sequence.role first = some ⟨.subquery, .opening⟩ := by
  rw [Cursor.opens, role_cursor, beq_iff_eq]
  constructor
  · intro opening
    obtain ⟨last, pair | other⟩ := exists_pair nested opening
    · exact ⟨last, pair, opening⟩
    · obtain ⟨kind, -, closes⟩ := nested.kinds last first other
      cases closes.symm.trans opening
  · rintro ⟨last, -, opening⟩
    exact opening

include nested in
theorem closes_iff : (sequence.cursor last).closes .subquery = true ↔
    ∃ first, sequence.Pair first last ∧ sequence.role first = some ⟨.subquery, .opening⟩ := by
  rw [Cursor.closes, role_cursor, beq_iff_eq]
  constructor
  · intro closing
    obtain ⟨first, other | pair⟩ := exists_pair nested closing
    · obtain ⟨kind, opens, -⟩ := nested.kinds last first other
      cases opens.symm.trans closing
    · obtain ⟨kind, opens, closes⟩ := nested.kinds first last pair
      obtain rfl : kind = .subquery := by simpa using closes.symm.trans closing
      exact ⟨first, pair, opens⟩
  · rintro ⟨first, pair, opening⟩
    obtain ⟨kind, opens, closes⟩ := nested.kinds first last pair
    obtain rfl : kind = .subquery := by simpa using opens.symm.trans opening
    exact closes

private theorem isName_iff {place : Nat} :
    (sequence.cursor place).isName = true ∧ (sequence.cursor place).value = name ↔
    ∃ token : Token, token.kind = .name ∧ token.value = name ∧ sequence.tokens[place]? = some token := by
  rw [Cursor.isName, Cursor.kind?, Cursor.value, Cursor.token?_cursor]
  cases sequence.tokens[place]? <;> simp

private theorem isWord_iff {place : Nat} {text : String} : (sequence.cursor place).isWord text = true ↔
    ∃ word : Token, sequence.tokens[place]? = some word ∧ word.kind = .keyword ∧ word.normalized = text := by
  rw [Cursor.isWord, Cursor.isKeyword, Cursor.kind?, Cursor.normalized, Cursor.token?_cursor]
  cases sequence.tokens[place]? <;> simp

/-- The name is looked for where it can be: AS is no name. -/
theorem nameBehind_iff {cursor : Cursor}
    (found : cursor = if (sequence.cursor last).next.isWord "AS" then
      (sequence.cursor last).next.next else (sequence.cursor last).next) :
    NameBehind sequence last name ↔ cursor.isName = true ∧ cursor.value = name := by
  rw [Cursor.next_cursor, Cursor.next_cursor] at found
  subst cursor
  split
  next behind =>
    obtain ⟨word, stored, kind, normalized⟩ := isWord_iff.mp behind
    rw [isName_iff]
    constructor
    · rintro ⟨token, isName, value, here | ⟨-, -, -, -, there⟩⟩
      · obtain rfl := Option.some.inj (stored.symm.trans here)
        cases kind.symm.trans isName
      · exact ⟨token, isName, value, there⟩
    · rintro ⟨token, isName, value, there⟩
      exact ⟨token, isName, value, .inr ⟨word, stored, kind, normalized, there⟩⟩
  next other =>
    rw [isName_iff]
    constructor
    · rintro ⟨token, isName, value, here | ⟨word, stored, kind, normalized, -⟩⟩
      · exact ⟨token, isName, value, here⟩
      · exact absurd (isWord_iff.mpr ⟨word, stored, kind, normalized⟩) other
    · rintro ⟨token, isName, value, here⟩
      exact ⟨token, isName, value, .inl here⟩

private theorem starts_iff : ["SELECT", "WITH"].contains (sequence.cursor first).next.normalized = true ↔
    ∃ token : Token, sequence.tokens[first + 1]? = some token ∧
        (token.normalized = "SELECT" ∨ token.normalized = "WITH") := by
  rw [Cursor.next_cursor, Cursor.normalized, Cursor.token?_cursor]
  cases sequence.tokens[first + 1]? <;> simp

include nested in
/-- What is found at a closing parenthesis is the sub-query in it, if it has a name. -/
theorem named?_eq_some_iff : named? (sequence.cursor last) = some (name, body) ↔
    ∃ first, Named sequence name first last ∧ body = sequence.write first last := by
  unfold named?
  constructor
  · intro found
    extract_lets opening after cursor at found
    split at found
    next holds =>
      simp only [Bool.and_eq_true] at holds
      obtain ⟨⟨closes, starts⟩, isName⟩ := holds
      obtain ⟨first, pair, role⟩ := (closes_iff nested).mp closes
      obtain ⟨begun, inside⟩ := pair_inside pair
      have opened : opening = sequence.cursor first := (matching_of_pair nested pair).2
      have index {place : Nat} (within : place < sequence.size) : (sequence.cursor place).index = some place := by
        rw [Cursor.cursor_of_lt within]
      rw [opened] at starts
      simp only [opened, index begun, index inside] at found
      obtain ⟨value, text⟩ := Prod.mk.inj (Option.some.inj found)
      exact ⟨first, ⟨pair, role, starts_iff.mp starts, (nameBehind_iff rfl).mpr ⟨isName, value⟩⟩, text.symm⟩
    next => cases found
  · rintro ⟨first, ⟨pair, role, starts, behind⟩, rfl⟩
    obtain ⟨begun, inside⟩ := pair_inside pair
    obtain ⟨isName, value⟩ := (nameBehind_iff rfl).mp behind
    have closes := (closes_iff nested).mpr ⟨first, pair, role⟩
    have opening := (matching_of_pair nested pair).2
    simp only [opening, closes, starts_iff.mpr starts, isName, Bool.and_self, if_true, value]
    rw [Cursor.cursor_of_lt begun, Cursor.cursor_of_lt inside]

include nested in
/-- What is found at an opening parenthesis is the same sub-query. -/
theorem openedAt?_eq_some_iff : openedAt? (sequence.cursor first) = some (last, name, body) ↔
    Named sequence name first last ∧ body = sequence.write first last := by
  unfold openedAt?
  constructor
  · intro found
    extract_lets close after cursor at found
    split at found
    next holds =>
      simp only [Bool.and_eq_true] at holds
      obtain ⟨⟨opens, starts⟩, isName⟩ := holds
      obtain ⟨other, pair, role⟩ := (opens_iff nested).mp opens
      obtain ⟨begun, inside⟩ := pair_inside pair
      have closed : close = sequence.cursor other := (matching_of_pair nested pair).1
      have index {place : Nat} (within : place < sequence.size) : (sequence.cursor place).index = some place := by
        rw [Cursor.cursor_of_lt within]
      have behind := (nameBehind_iff (show cursor = _ by rw [← closed])).mpr ⟨isName, rfl⟩
      simp only [closed, index begun, index inside] at found
      obtain ⟨rfl, rest⟩ := Prod.mk.inj (Option.some.inj found)
      obtain ⟨value, text⟩ := Prod.mk.inj rest
      exact ⟨⟨pair, role, starts_iff.mp starts, value ▸ behind⟩, text.symm⟩
    next => cases found
  · rintro ⟨⟨pair, role, starts, behind⟩, rfl⟩
    obtain ⟨begun, inside⟩ := pair_inside pair
    obtain ⟨isName, value⟩ := (nameBehind_iff rfl).mp behind
    have opens := (opens_iff nested).mpr ⟨last, pair, role⟩
    have close := (matching_of_pair nested pair).1
    simp only [close, opens, starts_iff.mpr starts, isName, Bool.and_self, if_true, value]
    rw [Cursor.cursor_of_lt begun, Cursor.cursor_of_lt inside]

end Closing

section Order

/-- What is found at the closing parentheses, with their places. -/
def atClosings (sequence : TokenSequence) : List (Nat × String × String) :=
  (List.range sequence.size).filterMap fun last => (named? (sequence.cursor last)).map (last, ·)

private theorem map_atClosings : (atClosings sequence).map (·.2) = sequence.cursors.filterMap named? := by
  rw [Cursor.cursors_eq_map, List.filterMap_map, atClosings, List.map_filterMap]
  apply List.filterMap_congr
  intro last _
  cases found : named? (sequence.cursor last) <;> simp [found]

private theorem ordered_atClosings : (atClosings sequence).Pairwise fun one other => one.1 < other.1 := by
  apply List.Pairwise.filterMap _ _ List.pairwise_lt_range
  intro last later before one found other also
  obtain ⟨_, -, rfl⟩ := Option.map_eq_some_iff.mp found
  obtain ⟨_, -, rfl⟩ := Option.map_eq_some_iff.mp also
  exact before

include nested in
private theorem mem_atClosings : (last, name, body) ∈ atClosings sequence ↔
    ∃ first, Named sequence name first last ∧ body = sequence.write first last := by
  rw [atClosings, List.mem_filterMap]
  constructor
  · rintro ⟨place, -, found⟩
    obtain ⟨_, there, same⟩ := Option.map_eq_some_iff.mp found
    obtain ⟨rfl, rfl⟩ := Prod.mk.inj same
    exact (named?_eq_some_iff nested).mp there
  · rintro ⟨first, named, text⟩
    have there := (named?_eq_some_iff nested).mpr ⟨first, named, text⟩
    exact ⟨last, List.mem_range.mpr (pair_inside named.pair).2, by rw [there, Option.map_some]⟩

include nested in
private theorem mem_openings : (last, name, body) ∈ sequence.cursors.filterMap openedAt? ↔
    ∃ first, Named sequence name first last ∧ body = sequence.write first last := by
  rw [List.mem_filterMap]
  constructor
  · rintro ⟨cursor, reached, found⟩
    obtain ⟨first, -, rfl⟩ := Cursor.mem_cursors reached
    exact ⟨first, (openedAt?_eq_some_iff nested).mp found⟩
  · rintro ⟨first, named, text⟩
    refine ⟨sequence.cursor first, ?_, (openedAt?_eq_some_iff nested).mpr ⟨named, text⟩⟩
    rw [Cursor.cursors_eq_map]
    exact List.mem_map_of_mem (List.mem_range.mpr (pair_inside named.pair).1)

include nested in
private theorem nodup_openings : (sequence.cursors.filterMap openedAt?).Nodup := by
  rw [Cursor.cursors_eq_map, List.filterMap_map]
  apply List.nodup_range.filterMap
  rintro first other ⟨last, name, body⟩ found also
  obtain ⟨here, -⟩ := (openedAt?_eq_some_iff nested).mp found
  obtain ⟨there, -⟩ := (openedAt?_eq_some_iff nested).mp also
  exact here.pair.first_unique there.pair

include nested in
/-- A parenthesis closes at one place only, so that the order of closing leaves no choice. -/
theorem inClosingOrder_eq : inClosingOrder sequence = atClosings sequence := by
  have sorted : (inClosingOrder sequence).Pairwise fun one other => decide (one.1 ≤ other.1) = true := by
    apply List.pairwise_mergeSort
    · intro one other third
      simpa using Nat.le_trans
    · intro one other
      simpa using Nat.le_total one.1 other.1
  have apart : (atClosings sequence).Pairwise fun one other => one.1 < other.1 := ordered_atClosings
  have nodup : (atClosings sequence).Nodup := apart.imp fun before => by rintro rfl; exact Nat.lt_irrefl _ before
  have same : (sequence.cursors.filterMap openedAt?).Perm (atClosings sequence) := by
    apply (List.perm_ext_iff_of_nodup (nodup_openings nested) nodup).mpr
    rintro ⟨last, name, body⟩
    rw [mem_openings nested, mem_atClosings nested]
  have perm : (inClosingOrder sequence).Perm (atClosings sequence) := (List.mergeSort_perm _ _).trans same
  -- Two orders of the same sub-queries by where they close differ only if two close at one place.
  apply perm.eq_of_pairwise ?_ sorted (apart.imp fun before => decide_eq_true (Nat.le_of_lt before))
  rintro ⟨last, name, body⟩ ⟨other, label, text⟩ here there before after
  obtain rfl : last = other := Nat.le_antisymm (of_decide_eq_true before) (of_decide_eq_true after)
  have one := (named?_eq_some_iff nested).mpr ((mem_atClosings nested).mp (perm.mem_iff.mp here))
  have two := (named?_eq_some_iff nested).mpr ((mem_atClosings nested).mp there)
  rw [Option.some.inj (one.symm.trans two)]

include nested in
/-- Sub-queries that are found where they open and sorted by where they close make the same list. -/
theorem bodies_eq_ordered : bodies sequence = NameMap.ofFirstPairs ((inClosingOrder sequence).map (·.2)) := by
  rw [inClosingOrder_eq nested, map_atClosings, bodies]

end Order

section Run

/-- What the sub-queries that close before a place leave in the list. -/
structure Lists (sequence : TokenSequence) (count : Nat) (bodies : NameMap String) : Prop where
  complete : ∀ name, name ∈ bodies.keys ↔ ∃ first last, last < count ∧ Named sequence name first last
  once : bodies.keys.Nodup
  texts : ∀ name body, (name, body) ∈ bodies.entries → ∃ first last, Listed sequence name first last ∧
    body = sequence.write first last
  ordered : bodies.keys.Pairwise fun name other => ∀ first last opening closing,
    Listed sequence name first last → Listed sequence other opening closing → last < closing

private theorem lists_start : Lists sequence 0 {} := by
  refine ⟨fun name => ?_, List.nodup_nil, fun _ _ member => absurd member List.not_mem_nil, .nil⟩
  simp [NameMap.keys]

/-- The list with what is found at one more place. -/
def extend (bodies : NameMap String) : Option (String × String) → NameMap String
  | none => bodies
  | some (name, body) => bodies.insertNew name body

private theorem mem_keys_extend {bodies : NameMap String} {found : Option (String × String)} :
    name ∈ (extend bodies found).keys ↔ name ∈ bodies.keys ∨ ∃ body, found = some (name, body) := by
  cases found with
  | none => simp [extend]
  | some pair =>
    obtain ⟨key, value⟩ := pair
    simp [extend, NameMap.keys_insertNew, eq_comm]

include nested in
/-- A closing parenthesis adds its sub-query when it has a name that is not in the list yet. -/
theorem lists_step {count : Nat} {bodies : NameMap String} (lists : Lists sequence count bodies) :
    Lists sequence (count + 1) (extend bodies (named? (sequence.cursor count))) := by
  have complete (name : String) : name ∈ (extend bodies (named? (sequence.cursor count))).keys ↔
      ∃ first last, last < count + 1 ∧ Named sequence name first last := by
    rw [mem_keys_extend, lists.complete]
    constructor
    · rintro (⟨first, last, below, named⟩ | ⟨body, found⟩)
      · exact ⟨first, last, Nat.lt_succ_of_lt below, named⟩
      · obtain ⟨first, named, -⟩ := (named?_eq_some_iff nested).mp found
        exact ⟨first, count, Nat.lt_succ_self count, named⟩
    · rintro ⟨first, last, below, named⟩
      rcases Nat.lt_succ_iff_lt_or_eq.mp below with earlier | rfl
      · exact .inl ⟨first, last, earlier, named⟩
      · exact .inr ⟨_, (named?_eq_some_iff nested).mpr ⟨first, named, rfl⟩⟩
  cases found : named? (sequence.cursor count) with
  | none =>
    rw [found] at complete
    exact ⟨complete, lists.once, lists.texts, lists.ordered⟩
  | some pair =>
    obtain ⟨name, body⟩ := pair
    rw [found] at complete
    obtain ⟨first, named, text⟩ := (named?_eq_some_iff nested).mp found
    by_cases known : bodies.contains name = true
    · have same : extend bodies (some (name, body)) = bodies := if_pos known
      rw [same] at complete ⊢
      exact ⟨complete, lists.once, lists.texts, lists.ordered⟩
    · have entries : (extend bodies (some (name, body))).entries = bodies.entries ++ [(name, body)] := by
        rw [extend, NameMap.insertNew, if_neg known]
      have keys : (extend bodies (some (name, body))).keys = bodies.keys ++ [name] := by
        rw [NameMap.keys, entries, List.map_append]
        rfl
      have unlisted : name ∉ bodies.keys := mt NameMap.contains_iff.mpr known
      -- A sub-query of this name that closes earlier would have put the name into the list.
      have earliest (other close : Nat) (also : Named sequence name other close) : count ≤ close := by
        apply Nat.le_of_not_lt
        intro below
        exact unlisted ((lists.complete name).mpr ⟨other, close, below, also⟩)
      refine ⟨complete, NameMap.nodup_keys_insertNew lists.once, ?_, ?_⟩
      · intro other text' member
        rw [entries, List.mem_append, List.mem_singleton] at member
        rcases member with old | new
        · exact lists.texts other text' old
        · obtain ⟨rfl, rfl⟩ := Prod.mk.inj new
          exact ⟨first, count, ⟨named, earliest⟩, text⟩
      · rw [keys, List.pairwise_append]
        refine ⟨lists.ordered, List.pairwise_singleton _ _, ?_⟩
        intro other member new single opening last first closing here there
        obtain rfl := List.mem_singleton.mp single
        obtain ⟨begun, close, below, also⟩ := (lists.complete other).mp member
        have before := here.earliest begun close also
        have after := earliest first closing there.named
        omega

private theorem ofFirstPairs_append (pairs : List (String × String)) (found : Option (String × String)) :
    NameMap.ofFirstPairs (pairs ++ found.toList) = extend (NameMap.ofFirstPairs pairs) found := by
  rw [NameMap.ofFirstPairs, List.foldl_append]
  cases found <;> rfl

include nested in
theorem lists_range (count : Nat) :
    Lists sequence count (NameMap.ofFirstPairs (((List.range count).map sequence.cursor).filterMap named?)) := by
  induction count with
  | zero => exact lists_start
  | succ count ih =>
    have last : [sequence.cursor count].filterMap named? = (named? (sequence.cursor count)).toList := by
      cases found : named? (sequence.cursor count) <;> simp [found]
    rw [List.range_succ, List.map_append, List.filterMap_append, List.map_singleton, last, ofFirstPairs_append]
    exact lists_step nested ih

include nested in
theorem lists_bodies : Lists sequence sequence.size (bodies sequence) := by
  rw [bodies, Cursor.cursors_eq_map]
  exact lists_range nested sequence.size

private theorem sublist_or_sublist {names : List String} {one other : String} (here : one ∈ names)
    (there : other ∈ names)
    (apart : one ≠ other) : [one, other].Sublist names ∨ [other, one].Sublist names := by
  obtain ⟨before, after, rfl⟩ := List.append_of_mem here
  rcases List.mem_append.mp there with earlier | later
  · right
    exact (List.singleton_sublist.mpr earlier).append (List.singleton_sublist.mpr List.mem_cons_self)
  · left
    have behind : other ∈ after := (List.mem_cons.mp later).resolve_left apart.symm
    exact ((List.singleton_sublist.mpr behind).cons_cons one).trans (List.sublist_append_right before _)

include nested in
theorem listing_bodies : Listing sequence (bodies sequence) := by
  have lists := lists_bodies nested
  have complete (name : String) : name ∈ (bodies sequence).keys ↔ ∃ first last, Named sequence name first last := by
    rw [lists.complete]
    constructor
    · rintro ⟨first, last, -, named⟩
      exact ⟨first, last, named⟩
    · rintro ⟨first, last, named⟩
      exact ⟨first, last, (pair_inside named.pair).2, named⟩
  refine ⟨complete, lists.once, lists.texts, lists.ordered, ?_⟩
  intro inner outer first last opening closing here there _ before
  have apart : inner ≠ outer := by
    rintro rfl
    have after := there.earliest first last here.named
    omega
  have one := (complete inner).mpr ⟨first, last, here.named⟩
  have two := (complete outer).mpr ⟨opening, closing, there.named⟩
  rcases sublist_or_sublist one two apart with ahead | behind
  · exact ahead
  · have after : closing < last :=
      List.pairwise_iff_forall_sublist.mp lists.ordered behind opening closing first last there here
    omega

end Run

section Statement

theorem subqueries_ofTokens {kind : StatementKind} {analyze : String → Except Error Facts} {facts : Facts}
    (analyzed : Facts.ofTokens sequence kind analyze = .ok facts) : facts.subqueries = bodies sequence := by
  obtain ⟨-, clause, scan, aliases, -, -, -, rfl⟩ := Facts.ofTokens_ok_iff.mp analyzed
  exact (MeantColumns.keeps_completed sequence clause aliases scan.references).subqueries

/-- The list of named sub-queries is complete, has each name once with the text of the sub-query
that closes first, and is in the order in which these close; the facts of a statement have it. -/
theorem annotate_listing {limits : Limits} {lexemes : List Lexeme}
    (annotated : annotate limits lexemes = .ok sequence) :
    Listing sequence (bodies sequence) ∧
      ∀ kind analyze facts, Facts.ofTokens sequence kind analyze = .ok facts → facts.subqueries = bodies sequence :=
  ⟨listing_bodies (annotate_wellNested annotated), fun _ _ _ => subqueries_ofTokens⟩

/-- The inner sub-query hides the one around it, which has its name. -/
theorem annotate_listing_hidden : ∃ lexemes sequence,
    Lexeme.ofText "SELECT a FROM (SELECT b FROM (SELECT c FROM t) AS x) x JOIN (SELECT d FROM u) y".toList =
      .ok lexemes ∧
      annotate {} lexemes = .ok sequence ∧ (bodies sequence).entries =
        [("x", "SELECT c FROM t"), ("y", "SELECT d FROM u")] ∧
      Listing sequence (bodies sequence) ∧
      ∀ kind analyze facts, Facts.ofTokens sequence kind analyze = .ok facts → facts.subqueries = bodies sequence := by
  have whole :
      ((Lexeme.ofText
        "SELECT a FROM (SELECT b FROM (SELECT c FROM t) AS x) x JOIN (SELECT d FROM u) y".toList).toOption.bind
      fun lexemes => (annotate {} lexemes).toOption.map fun sequence => (bodies sequence).entries) =
        some [("x", "SELECT c FROM t"), ("y", "SELECT d FROM u")] := by
    decide +kernel
  obtain ⟨lexemes, read, rest⟩ := Option.bind_eq_some_iff.mp whole
  obtain ⟨sequence, annotated, entries⟩ := Option.map_eq_some_iff.mp rest
  have built := ok_of_toOption annotated
  exact ⟨lexemes, sequence, ok_of_toOption read, built, entries, annotate_listing built⟩

end Statement

end QueryFacts.Proofs.SubqueryListing

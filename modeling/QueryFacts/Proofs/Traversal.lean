import Mathlib.Data.List.Count
import QueryFacts.Proofs.Unfolding

/-! The walk of a name graph on any graph, cyclic ones included, with the names that it
comes to on the way. It comes to the name that it starts with, and to every target of a
name that it opens, and it opens exactly the names that can be reached and stand for
others. A name that stands for others is reached where the walk comes to it once more, so
at every cycle one name at least is. -/

namespace QueryFacts.Proofs.Traversal
open Relation Unfolding

variable {links : Links}

/-- A name names another one, which may be itself. -/
def Goes (links : Links) (name other : String) : Prop := other ∈ targets links name

/-- The walk from the names of a list with all names that it comes to, in the order in
which it comes to them and with repetitions. -/
inductive Visits (links : Links) :
    List String → List String → List String → List String → List String → List String → Prop where
  | done {opened out : List String} : Visits links [] opened out [] opened out
  | final {name : String} {rest opened out calls after reached : List String} (ends : links name = none)
      (others : Visits links rest opened (addNew out name) calls after reached) :
      Visits links (name :: rest) opened out (name :: calls) after reached
  | again {name : String} {rest opened out calls after reached : List String} (known : name ∈ opened)
      (others : Visits links rest opened (addNew out name) calls after reached) :
      Visits links (name :: rest) opened out (name :: calls) after reached
  | opens {name : String} {found rest opened out within between middle later after reached : List String}
      (fresh : name ∉ opened) (opening : links name = some found)
      (inner : Visits links found (name :: opened) out within between middle)
      (others : Visits links rest between middle later after reached) :
      Visits links (name :: rest) opened out (name :: (within ++ later)) after reached

section Run
variable {pending opened out calls after reached : List String}

theorem Visits.walks (visits : Visits links pending opened out calls after reached) :
    Walks links pending opened out after reached := by
  induction visits with
  | done => exact .done
  | final ends others ih => exact .final ends ih
  | again known others ih => exact .again known ih
  | opens fresh opening inner others ihInner ihOthers => exact .opens fresh opening ihInner ihOthers

theorem exists_visits (walks : Walks links pending opened out after reached) :
    ∃ calls, Visits links pending opened out calls after reached := by
  induction walks with
  | done => exact ⟨[], .done⟩
  | @final name rest opened out after reached ends others ih =>
    obtain ⟨calls, visits⟩ := ih
    exact ⟨name :: calls, .final ends visits⟩
  | @again name rest opened out after reached known others ih =>
    obtain ⟨calls, visits⟩ := ih
    exact ⟨name :: calls, .again known visits⟩
  | @opens name found rest opened out between middle after reached fresh opening inner others ihInner ihOthers =>
    obtain ⟨within, inner⟩ := ihInner
    obtain ⟨later, others⟩ := ihOthers
    exact ⟨name :: (within ++ later), .opens fresh opening inner others⟩

theorem Visits.nodup (visits : Visits links pending opened out calls after reached)
    (once : out.Nodup) : reached.Nodup := by
  induction visits with
  | done => exact once
  | final ends others ih => exact ih (nodup_addNew once)
  | again known others ih => exact ih (nodup_addNew once)
  | opens fresh opening inner others ihInner ihOthers => exact ihOthers (ihInner once)

/-- The walk reaches only names that it comes to. -/
theorem Visits.calls_of_reached (visits : Visits links pending opened out calls after reached) {name : String}
    (member : name ∈ reached) : name ∈ out ∨ name ∈ calls := by
  induction visits with
  | done => exact .inl member
  | final ends others ih =>
    rcases ih member with before | later
    · exact (mem_addNew.mp before).imp id fun same => List.mem_cons.mpr (.inl same)
    · exact .inr (List.mem_cons_of_mem _ later)
  | again known others ih =>
    rcases ih member with before | later
    · exact (mem_addNew.mp before).imp id fun same => List.mem_cons.mpr (.inl same)
    · exact .inr (List.mem_cons_of_mem _ later)
  | opens fresh opening inner others ihInner ihOthers =>
    rcases ihOthers member with before | later
    · exact (ihInner before).imp id fun inside => List.mem_cons_of_mem _ (List.mem_append_left _ inside)
    · exact .inr (List.mem_cons_of_mem _ (List.mem_append_right _ later))

/-- A name that stands for itself is reached wherever the walk comes to it. -/
theorem Visits.reached_of_final (visits : Visits links pending opened out calls after reached) {name : String}
    (ends : links name = none) (member : name ∈ calls) : name ∈ reached := by
  induction visits with
  | done => cases member
  | final _ others ih =>
    rcases List.mem_cons.mp member with rfl | later
    · exact others.walks.subset (mem_addNew.mpr (.inr rfl))
    · exact ih later
  | again known others ih =>
    rcases List.mem_cons.mp member with rfl | later
    · exact others.walks.subset (mem_addNew.mpr (.inr rfl))
    · exact ih later
  | opens fresh opening inner others ihInner ihOthers =>
    rcases List.mem_cons.mp member with rfl | further
    · cases ends.symm.trans opening
    · rcases List.mem_append.mp further with inside | later
      · exact others.walks.subset (ihInner inside)
      · exact ihOthers later

/-- The walk comes to the names that it starts from and to the targets of those it opens. -/
theorem Visits.exists_perm (visits : Visits links pending opened out calls after reached) :
    ∃ added, after = added ++ opened ∧ calls.Perm (places links pending added) := by
  induction visits with
  | done => exact ⟨[], rfl, .refl _⟩
  | final ends others ih =>
    obtain ⟨added, whole, same⟩ := ih
    exact ⟨added, whole, same.cons _⟩
  | again known others ih =>
    obtain ⟨added, whole, same⟩ := ih
    exact ⟨added, whole, same.cons _⟩
  | @opens name found rest opened out within between middle later after reached fresh opening
      inner others ihInner ihOthers =>
    obtain ⟨first, rfl, sameFirst⟩ := ihInner
    obtain ⟨second, rfl, sameSecond⟩ := ihOthers
    refine ⟨second ++ first ++ [name], by simp, .cons _ ?_⟩
    have all : rest ++ (second ++ first ++ [name]).flatMap (targets links) =
        places links rest second ++ (first.flatMap (targets links) ++ found) := by
      simp [places, targets_of_some opening]
    calc List.Perm (within ++ later) (places links found first ++ places links rest second) :=
  sameFirst.append sameSecond
      List.Perm _ (places links rest second ++ places links found first) := List.perm_append_comm
      List.Perm _ (places links rest second ++ (first.flatMap (targets links) ++ found)) :=
    List.perm_append_comm.append_left _
      _ = rest ++ (second ++ first ++ [name]).flatMap (targets links) := all.symm

end Run

theorem goes_of_leads {name other : String} (lead : Leads links name other) : Goes links name other := by
  obtain ⟨found, opening, member, -⟩ := lead
  rwa [Goes, targets_of_some opening]

theorem isSome_of_goes {name other : String} (goes : Goes links name other) : (links name).isSome := by
  cases opening : links name with
  | none => simp [Goes, targets, opening] at goes
  | some found => rfl

/-- That a name names itself too adds nothing to what can be reached from it. -/
theorem leads_iff_goes {root name : String} :
    ReflTransGen (Leads links) root name ↔ ReflTransGen (Goes links) root name := by
  constructor
  · exact fun path => path.lift id fun _ _ => goes_of_leads
  · intro path
    induction path with
    | refl => exact .refl
    | @tail middle last path goes ih =>
      by_cases same : last = middle
      · exact same ▸ ih
      · obtain ⟨found, opening⟩ := Option.isSome_iff_exists.mp (isSome_of_goes goes)
        exact ih.tail ⟨found, opening, targets_of_some opening ▸ goes, same⟩

section Whole
variable {root : String} {calls opened reached : List String}

/-- The walk from one name: it ends there, or it opens the name and goes on. -/
theorem Visits.start (visits : Visits links [root] [] [] calls opened reached) :
    links root = none ∧ calls = [root] ∧ opened = [] ∧ reached = [root] ∨
      ∃ found within, links root = some found ∧ calls = root :: within ∧
          Visits links found [root] [] within opened reached := by
  cases visits with
  | final ends others =>
    cases others
    exact .inl ⟨ends, rfl, rfl, rfl⟩
  | again known => cases known
  | opens fresh opening inner others =>
    cases others
    exact .inr ⟨_, _, opening, by rw [List.append_nil], inner⟩

theorem Visits.nodup_opened (visits : Visits links [root] [] [] calls opened reached) : opened.Nodup := by
  obtain ⟨added, whole⟩ := visits.walks.exists_opens
  exact whole.nodup List.nodup_nil

/-- The walk opens exactly the names that can be reached and stand for others. -/
theorem Visits.mem_opened_iff (visits : Visits links [root] [] [] calls opened reached) {name : String} :
    name ∈ opened ↔ ReflTransGen (Goes links) root name ∧ (links name).isSome := by
  rcases visits.start with ⟨ends, -, rfl, -⟩ | ⟨found, within, opening, -, inner⟩
  · refine ⟨fun member => (nomatch member), fun ⟨path, known⟩ => ?_⟩
    rcases path.cases_head with rfl | ⟨next, goes, -⟩
    · simp [ends] at known
    · simpa [ends] using isSome_of_goes goes
  · rw [← leads_iff_goes]
    constructor
    · exact fun member => ⟨opened_reachable opening inner.walks member, isSome_of_opened opening inner.walks member⟩
    · exact fun ⟨path, known⟩ => reachable_opened opening inner.walks path known

theorem Visits.perm_calls (visits : Visits links [root] [] [] calls opened reached) :
    calls.Perm (root :: opened.flatMap (targets links)) := by
  obtain ⟨added, rfl, same⟩ := visits.exists_perm
  rwa [List.append_nil]

/-- The walk comes to exactly the names that can be reached. -/
theorem Visits.mem_calls_iff (visits : Visits links [root] [] [] calls opened reached) {name : String} :
    name ∈ calls ↔ ReflTransGen (Goes links) root name := by
  rw [visits.perm_calls.mem_iff, List.mem_cons, List.mem_flatMap]
  constructor
  · rintro (rfl | ⟨before, member, goes⟩)
    · exact .refl
    · exact (visits.mem_opened_iff.mp member).1.tail goes
  · intro path
    rcases path.cases_tail with same | ⟨before, path, goes⟩
    · exact .inl same
    · exact .inr ⟨before, visits.mem_opened_iff.mpr ⟨path, isSome_of_goes goes⟩, goes⟩

theorem Visits.reachable (visits : Visits links [root] [] [] calls opened reached) {name : String}
    (member : name ∈ reached) :
    ReflTransGen (Goes links) root name :=
  visits.mem_calls_iff.mp ((visits.calls_of_reached member).resolve_left List.not_mem_nil)

theorem Visits.complete (visits : Visits links [root] [] [] calls opened reached) {name : String}
    (path : ReflTransGen (Goes links) root name) (ends : links name = none) : name ∈ reached :=
  visits.reached_of_final ends (visits.mem_calls_iff.mpr path)

/-- A name that stands for others is reached where the walk comes to it once more. -/
theorem Visits.mem_reached_iff (visits : Visits links [root] [] [] calls opened reached) {name : String}
    (known : (links name).isSome) : name ∈ reached ↔ 1 < calls.count name := by
  rw [visits.perm_calls.count_eq]
  rcases visits.start with ⟨ends, -, rfl, rfl⟩ | ⟨found, within, opening, -, inner⟩
  · have different : root ≠ name := by
      rintro rfl
      simp [ends] at known
    simp [different, different.symm]
  · exact Unfolding.mem_reached_iff opening inner.walks known

theorem Visits.reached_of_again (visits : Visits links [root] [] [] calls opened reached) {name : String}
    (again : 1 < calls.count name) : name ∈ reached := by
  cases ends : links name with
  | none => exact visits.reached_of_final ends (List.count_pos_iff.mp (Nat.zero_lt_of_lt again))
  | some found => exact (visits.mem_reached_iff (by simp [ends])).mpr again

/-- A name that the walk comes to from two names that it opens is reached. -/
theorem Visits.reached_of_two (visits : Visits links [root] [] [] calls opened reached) {first second name : String}
    (different : first ≠ second) (open_ : first ∈ opened) (alsoOpen : second ∈ opened) (goes : Goes links first name)
    (alsoGoes : Goes links second name) : name ∈ reached := by
  refine visits.reached_of_again ?_
  have firstCount : 0 < (targets links first).count name := List.count_pos_iff.mpr goes
  have secondCount : 0 < (targets links second).count name := List.count_pos_iff.mpr alsoGoes
  have rest : second ∈ opened.erase first := (List.mem_erase_of_ne different.symm).mpr alsoOpen
  have parts : opened.Perm (first :: second :: (opened.erase first).erase second) :=
    (List.perm_cons_erase open_).trans (.cons _ (List.perm_cons_erase rest))
  have total := (visits.perm_calls.trans (.cons _ (parts.flatMap_right (targets links)))).count_eq name
  simp only [List.flatMap_cons, List.count_cons, List.count_append] at total
  omega

/-- The name that the walk starts with is reached if it comes up again. -/
theorem Visits.reached_root (visits : Visits links [root] [] [] calls opened reached) {name : String}
    (path : ReflTransGen (Goes links) root name) (goes : Goes links name root) : root ∈ reached := by
  refine visits.reached_of_again ?_
  have open_ := visits.mem_opened_iff.mpr ⟨path, isSome_of_goes goes⟩
  have more : 0 < (opened.flatMap (targets links)).count root :=
    List.count_pos_iff.mpr (List.mem_flatMap.mpr ⟨name, open_, goes⟩)
  rw [visits.perm_calls.count_eq, List.count_cons_self]
  omega

/-- A path into a set of names enters it somewhere. -/
theorem exists_entry {relation : String → String → Prop} {inside : String → Prop} {name : String}
    (path : ReflTransGen relation root name) (outside : ¬inside root) (ends : inside name) :
    ∃ before entry, ReflTransGen relation root before ∧ relation before entry ∧ ¬inside before ∧ inside entry := by
  induction path with
  | refl => exact absurd ends outside
  | @tail middle last path step ih =>
    by_cases already : inside middle
    · exact ih already
    · exact ⟨middle, last, path, step, already, ends⟩

/-- On every cycle that can be reached, the walk reaches some name: the one at which it
enters the cycle, since it comes to that name from the cycle once more. -/
theorem Visits.exists_reached_of_cycle (visits : Visits links [root] [] [] calls opened reached) {name : String}
    (path : ReflTransGen (Goes links) root name) (cycle : TransGen (Goes links) name name) :
    ∃ other ∈ reached, ReflTransGen (Goes links) name other ∧ ReflTransGen (Goes links) other name := by
  let OnCycle (other : String) := ReflTransGen (Goes links) name other ∧ ReflTransGen (Goes links) other name
  have exists_before {other : String} (on : OnCycle other) : ∃ before, OnCycle before ∧ Goes links before other := by
    obtain ⟨before, reach, goes⟩ := TransGen.tail'_iff.mp (cycle.trans_left on.1)
    exact ⟨before, ⟨reach, .head goes on.2⟩, goes⟩
  by_cases start : OnCycle root
  · obtain ⟨before, on, goes⟩ := exists_before start
    exact ⟨root, visits.reached_root (path.trans on.1) goes, start⟩
  · obtain ⟨outer, entry, outerPath, outerGoes, outside, on⟩ := exists_entry path start ⟨.refl, .refl⟩
    obtain ⟨inner, innerOn, innerGoes⟩ := exists_before on
    have different : outer ≠ inner := fun same => outside (same ▸ innerOn)
    have outerOpen := visits.mem_opened_iff.mpr ⟨outerPath, isSome_of_goes outerGoes⟩
    have innerOpen := visits.mem_opened_iff.mpr ⟨path.trans innerOn.1, isSome_of_goes innerGoes⟩
    exact ⟨entry, visits.reached_of_two different outerOpen innerOpen outerGoes innerGoes, on⟩

end Whole

end QueryFacts.Proofs.Traversal

import Mathlib.Data.List.Perm.Basic
import QueryFacts.Proofs.AliasSubstitution

/-! Aliases that rename one column each. Following them ends with a column, or on a cycle with the name
that comes up a second time, which stands for itself. -/

namespace QueryFacts

/-- Every alias stands for one column. -/
def Alias.Renames (aliases : NameMap AliasTarget) : Prop :=
  ∀ name target, aliases.find? name = some target → ∃ column, target = .column column

namespace Proofs.Renaming
open Unfolding AliasSubstitution

section Resolving

variable {aliases : NameMap AliasTarget} {opened : List String} {name last : String}

/-- The name at which the aliases from a name on end, after those that have been opened. -/
inductive Ends (aliases : NameMap AliasTarget) : List String → String → String → Prop where
  | plain {opened : List String} {name : String} (closed : aliases.find? name = none) : Ends aliases opened name name
  | again {opened : List String} {name : String} (known : name ∈ opened) : Ends aliases opened name name
  | step {opened : List String} {name column last : String} (fresh : name ∉ opened)
      (link : aliases.find? name = some (.column column)) (later : Ends aliases (name :: opened) column last) :
      Ends aliases opened name last

theorem ends_of_walks (renames : Alias.Renames aliases) {after reached : List String}
    (walks : Walks (links aliases) [name] opened [] after reached) :
    ∃ last, reached = [last] ∧ Ends aliases opened name last := by
  generalize pending : [name] = names at walks
  generalize out : ([] : List String) = start at walks
  induction walks generalizing name with
  | done => cases pending
  | final ends others =>
    cases pending
    cases others
    exact ⟨_, by rw [← out]; rfl, .plain (by simpa [links] using ends)⟩
  | again known others =>
    cases pending
    cases others
    exact ⟨_, by rw [← out]; rfl, .again known⟩
  | opens fresh opening inner others ih =>
    cases pending
    cases others
    obtain ⟨target, link, rfl⟩ := Option.map_eq_some_iff.mp opening
    obtain ⟨column, rfl⟩ := renames _ target link
    obtain ⟨last, reached, later⟩ := ih rfl out
    exact ⟨last, reached, .step fresh link later⟩

theorem Ends.unique (ends : Ends aliases opened name last) {other : String}
    (also : Ends aliases opened name other) : last = other := by
  induction ends with
  | plain closed =>
    cases also with
    | plain | again => rfl
    | step fresh link later => cases closed.symm.trans link
  | again known =>
    cases also with
    | plain | again => rfl
    | step fresh link later => exact absurd known fresh
  | step fresh link later ih =>
    cases also with
    | plain closed => cases closed.symm.trans link
    | again known => exact absurd known fresh
    | step fresh link' later' =>
      obtain rfl : _ = _ := AliasTarget.column.inj (Option.some.inj (link.symm.trans link'))
      exact ih later'

/-- Only the name at the end has to be among those that have been opened. -/
theorem Ends.fewer (ends : Ends aliases opened name last) {some : List String} (fewer : some ⊆ opened)
    (kept : last ∈ opened → last ∈ some) : Ends aliases some name last := by
  induction ends generalizing some with
  | plain closed => exact .plain closed
  | again known => exact .again (kept known)
  | @step opened name column last fresh link later ih =>
    refine .step (fun known => fresh (fewer known)) link (ih (List.cons_subset_cons _ fewer) fun known => ?_)
    rcases List.mem_cons.mp known with rfl | old
    · exact List.mem_cons_self
    · exact List.mem_cons_of_mem _ (kept old)

/-- The name at the end stands for itself, as a column or as the first that comes up again. -/
theorem Ends.itself (ends : Ends aliases opened name last) (new : last ∉ opened) : Ends aliases [] last last := by
  induction ends with
  | plain closed => exact .plain closed
  | again known => exact absurd known new
  | @step opened name column last fresh link later ih =>
    by_cases here : last = name
    · subst here
      refine .step List.not_mem_nil link (later.fewer (fun other member => ?_) fun _ => List.mem_cons_self)
      exact List.mem_singleton.mp member ▸ List.mem_cons_self
    · exact ih fun known => (List.mem_cons.mp known).elim here new

theorem exists_ends (renames : Alias.Renames aliases) (name : String) :
    ∃ last, Alias.resolve aliases name = [last] ∧ Ends aliases [] name last := by
  cases known : aliases.find? name with
  | none => exact ⟨name, resolve_of_plain known, .plain known⟩
  | some target =>
    obtain ⟨column, rfl⟩ := renames name target known
    obtain ⟨opened, walks⟩ := walks_of_resolve known
    obtain ⟨last, reached, later⟩ := ends_of_walks renames walks
    exact ⟨last, reached, .step List.not_mem_nil known later⟩

/-- What a name stands for stands for itself. -/
theorem exists_resolved (renames : Alias.Renames aliases) (name : String) :
    ∃ last, Alias.resolve aliases name = [last] ∧ Alias.resolve aliases last = [last] := by
  obtain ⟨last, resolved, ends⟩ := exists_ends renames name
  obtain ⟨other, also, same⟩ := exists_ends renames last
  rw [same.unique (ends.itself List.not_mem_nil)] at also
  exact ⟨last, resolved, also⟩

end Resolving

section Lists

variable {α : Type}

theorem filter_append_filter {replaced : α → Bool} {values : List α}
    (last : values.Pairwise fun before after => replaced before → replaced after) :
    values.filter (!replaced ·) ++ values.filter replaced = values := by
  induction values with
  | nil => rfl
  | cons value values ih =>
    obtain ⟨later, rest⟩ := List.pairwise_cons.mp last
    cases here : replaced value with
    | false =>
      rw [List.filter_cons_of_pos (by simp [here]), List.filter_cons_of_neg (by simp [here]), List.cons_append, ih rest]
    | true =>
      have all : ∀ other ∈ value :: values, replaced other = true :=
        List.forall_mem_cons.mpr ⟨here, fun other member => later other member here⟩
      rw [List.filter_eq_nil_iff.mpr fun other member => by simp [all other member],
        List.filter_eq_self.mpr all, List.nil_append]

/-- Values that are replaced at the end of a list leave it as it is if they stand for themselves and nothing
else comes after them. -/
theorem replaced_eq_iff [DecidableEq α] {replaced : α → Bool} {means : α → List α}
    (once : ∀ value, ∃ last, means value = [last] ∧ means last = [last])
    (values : List α) :
    addAllNew (distinct (values.filter (!replaced ·))) (((distinct values).filter replaced).flatMap means) =
      distinct values ↔
      (∀ value ∈ values, replaced value → means value = [value]) ∧
        (distinct values).Pairwise fun before after => replaced before → replaced after := by
  rw [← filter_distinct]
  have parts (same : ∀ value ∈ values, replaced value → means value = [value]) :
      addAllNew ((distinct values).filter (!replaced ·)) (((distinct values).filter replaced).flatMap means) =
        (distinct values).filter (!replaced ·) ++ (distinct values).filter replaced := by
    have single : ((distinct values).filter replaced).flatMap means = (distinct values).filter replaced := by
      refine (List.flatMap_congr fun value member => ?_).trans (List.flatMap_singleton' _)
      obtain ⟨inside, here⟩ := List.mem_filter.mp member
      exact same value (mem_distinct.mp inside) here
    rw [single]
    refine addAllNew_of_nodup ((List.perm_append_comm.trans ?_).nodup_iff.mpr (nodup_distinct values))
    exact List.filter_append_perm replaced (distinct values)
  constructor
  · intro whole
    have same : ∀ value ∈ values, replaced value → means value = [value] := by
      intro value member here
      have inside := mem_distinct.mpr member
      rw [← whole, mem_addAllNew] at inside
      rcases inside with kept | put
      · simp [here] at kept
      · obtain ⟨other, -, among⟩ := List.mem_flatMap.mp put
        obtain ⟨last, stands, itself⟩ := once other
        rw [stands] at among
        rwa [List.mem_singleton.mp among]
    refine ⟨same, ?_⟩
    rw [← whole, parts same]
    refine List.pairwise_append.mpr ⟨?_, ?_, fun before _ after member _ => (List.mem_filter.mp member).2⟩
    · refine List.pairwise_of_forall_mem_list fun before member after _ here => ?_
      simp [here] at member
    · exact List.pairwise_of_forall_mem_list fun before _ after member _ => (List.mem_filter.mp member).2
  · rintro ⟨same, last⟩
    rw [parts same, filter_append_filter last]

theorem replaced_ne_nil [DecidableEq α] {replaced : α → Bool} {means : α → List α}
    (once : ∀ value, ∃ last, means value = [last])
    {values : List α} {value : α} (member : value ∈ values) :
    addAllNew (distinct (values.filter (!replaced ·))) (((distinct values).filter replaced).flatMap means) ≠ [] := by
  cases here : replaced value with
  | false =>
    exact List.ne_nil_of_mem
      (mem_addAllNew.mpr (.inl (mem_distinct.mpr (List.mem_filter.mpr ⟨member, by rw [here]; rfl⟩))))
  | true =>
    obtain ⟨last, stands⟩ := once value
    have inside : last ∈ ((distinct values).filter replaced).flatMap means :=
      List.mem_flatMap.mpr ⟨value, List.mem_filter.mpr ⟨mem_distinct.mpr member, here⟩,
        by rw [stands]; exact List.mem_cons_self⟩
    exact List.ne_nil_of_mem (mem_addAllNew.mpr (.inr inside))

end Lists

end Proofs.Renaming

end QueryFacts

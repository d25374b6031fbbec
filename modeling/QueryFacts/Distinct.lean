/-! Lists that hold each element once, at the place of its first appearance. -/

namespace QueryFacts

variable {α : Type} [DecidableEq α]

/-- Appends `value` unless it is there already. -/
def addNew (items : List α) (value : α) : List α :=
  if value ∈ items then items else items ++ [value]

def addAllNew (items values : List α) : List α := values.foldl addNew items

def distinct (values : List α) : List α := addAllNew [] values

@[simp] theorem mem_addNew {items : List α} {value x : α} : x ∈ addNew items value ↔ x ∈ items ∨ x = value := by
  unfold addNew
  split
  next inside => exact ⟨.inl, fun either => either.elim id fun same => same ▸ inside⟩
  next => simp

@[simp] theorem mem_addAllNew {items values : List α} {x : α} :
    x ∈ addAllNew items values ↔ x ∈ items ∨ x ∈ values := by
  induction values generalizing items with
  | nil => simp [addAllNew]
  | cons value values ih =>
    rw [show addAllNew items (value :: values) = addAllNew (addNew items value) values from rfl, ih]
    simp [or_assoc]

theorem mem_distinct {values : List α} {x : α} : x ∈ distinct values ↔ x ∈ values := by simp [distinct]

theorem addNew_of_mem {items : List α} {value : α} (inside : value ∈ items) : addNew items value = items :=
  if_pos inside

@[simp] theorem addAllNew_nil (items : List α) : addAllNew items [] = items := rfl

theorem addAllNew_cons (items values : List α) (value : α) :
    addAllNew items (value :: values) = addAllNew (addNew items value) values := rfl

theorem addAllNew_append (items first rest : List α) :
    addAllNew items (first ++ rest) = addAllNew (addAllNew items first) rest := List.foldl_append

theorem addAllNew_ne_nil {items values : List α} (more : values ≠ []) : addAllNew items values ≠ [] := by
  obtain ⟨value, inside⟩ := List.exists_mem_of_ne_nil _ more
  exact List.ne_nil_of_mem (mem_addAllNew.2 (.inr inside))

theorem addAllNew_of_subset {items values : List α} (inside : ∀ value ∈ values, value ∈ items) :
    addAllNew items values = items := by
  induction values with
  | nil => rfl
  | cons value values ih =>
    rw [addAllNew_cons, addNew_of_mem (inside value List.mem_cons_self)]
    exact ih fun other member => inside other (List.mem_cons_of_mem _ member)

theorem distinct_eq_singleton {values : List α} {x : α} :
    distinct values = [x] ↔ values ≠ [] ∧ ∀ value ∈ values, value = x := by
  constructor
  · intro same
    refine ⟨?_, fun value inside => List.mem_singleton.1 (same ▸ mem_distinct.2 inside)⟩
    rintro rfl
    cases same
  · rintro ⟨more, all⟩
    cases values with
    | nil => exact absurd rfl more
    | cons value rest =>
      obtain rfl := all value List.mem_cons_self
      exact addAllNew_of_subset fun other inside => List.mem_singleton.2 (all other (List.mem_cons_of_mem _ inside))

theorem distinct_cons_eq_singleton {x : α} {values : List α} :
    distinct (x :: values) = [x] ↔ ∀ value ∈ values, value = x := by
  rw [distinct_eq_singleton, List.forall_mem_cons]
  exact ⟨fun only => only.2.2, fun only => ⟨List.cons_ne_nil _ _, rfl, only⟩⟩

theorem filter_addNew_of_pos {keeps : α → Bool} {value : α} (kept : keeps value) (items : List α) :
    (addNew items value).filter keeps = addNew (items.filter keeps) value := by
  have same : value ∈ items.filter keeps ↔ value ∈ items := by simp [kept]
  unfold addNew
  split
  next inside => rw [if_pos (same.mpr inside)]
  next outside => rw [if_neg (mt same.mp outside), List.filter_append, List.filter_cons_of_pos kept, List.filter_nil]

theorem filter_addNew_of_neg {keeps : α → Bool} {value : α} (dropped : ¬keeps value) (items : List α) :
    (addNew items value).filter keeps = items.filter keeps := by
  unfold addNew
  split
  next => rfl
  next => rw [List.filter_append, List.filter_cons_of_neg dropped, List.filter_nil, List.append_nil]

theorem filter_addAllNew_of_neg {keeps : α → Bool} {values : List α} (dropped : ∀ value ∈ values, ¬keeps value)
    (items : List α) : (addAllNew items values).filter keeps = items.filter keeps := by
  induction values generalizing items with
  | nil => rfl
  | cons value values ih =>
    rw [addAllNew_cons, ih fun other member => dropped other (List.mem_cons_of_mem _ member),
      filter_addNew_of_neg (dropped value List.mem_cons_self)]

theorem filter_addAllNew (keeps : α → Bool) (items values : List α) :
    (addAllNew items values).filter keeps = addAllNew (items.filter keeps) (values.filter keeps) := by
  induction values generalizing items with
  | nil => rfl
  | cons value values ih =>
    rw [addAllNew_cons, ih]
    by_cases kept : keeps value
    · rw [filter_addNew_of_pos kept, List.filter_cons_of_pos kept, addAllNew_cons]
    · rw [filter_addNew_of_neg kept, List.filter_cons_of_neg kept]

theorem filter_distinct (keeps : α → Bool) (values : List α) :
    (distinct values).filter keeps = distinct (values.filter keeps) :=
  filter_addAllNew keeps [] values

theorem addAllNew_of_nodup {items values : List α} (once : (items ++ values).Nodup) :
    addAllNew items values = items ++ values := by
  induction values generalizing items with
  | nil => exact (List.append_nil items).symm
  | cons value values ih =>
    have fresh : value ∉ items := fun inside => (List.nodup_append.mp once).2.2 _ inside _ List.mem_cons_self rfl
    have step : addNew items value = items ++ [value] := if_neg fresh
    rw [addAllNew_cons, step, ih (by rwa [List.append_assoc, List.singleton_append]), List.append_assoc,
      List.singleton_append]

theorem distinct_of_nodup {values : List α} (once : values.Nodup) : distinct values = values :=
  (addAllNew_of_nodup (show ([] ++ values).Nodup from once))

/-- The first of the elements that satisfies a test is among those that are kept. -/
theorem find?_addAllNew (holds : α → Bool) (items values : List α) :
    (addAllNew items values).find? holds = (items.find? holds).or (values.find? holds) := by
  induction values generalizing items with
  | nil => rw [addAllNew_nil, List.find?_nil, Option.or_none]
  | cons value values ih =>
    have step : (addNew items value).find? holds = (items.find? holds).or ([value].find? holds) := by
      unfold addNew
      split
      next inside =>
        cases found : items.find? holds with
        | some other => rfl
        | none => rw [List.find?_singleton, if_neg (List.find?_eq_none.mp found value inside), Option.or_none]
      next => exact List.find?_append
    rw [addAllNew_cons, ih, step, Option.or_assoc, ← List.find?_append, List.singleton_append]

theorem find?_distinct (holds : α → Bool) (values : List α) : (distinct values).find? holds = values.find? holds := by
  rw [distinct, find?_addAllNew, List.find?_nil, Option.none_or]

theorem nodup_addNew {items : List α} {value : α} (once : items.Nodup) : (addNew items value).Nodup := by
  unfold addNew
  split
  next => exact once
  next outside => exact List.nodup_append.2 ⟨once, by simp, by rintro x inside y same rfl; simp_all⟩

theorem nodup_addAllNew {items values : List α} (once : items.Nodup) : (addAllNew items values).Nodup := by
  induction values generalizing items with
  | nil => exact once
  | cons value values ih => exact ih (nodup_addNew once)

theorem nodup_distinct (values : List α) : (distinct values).Nodup := nodup_addAllNew List.nodup_nil

end QueryFacts

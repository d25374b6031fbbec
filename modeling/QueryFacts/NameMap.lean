import QueryFacts.Distinct

/-! Maps from names, kept as pairs in the order in which the names came. -/

namespace QueryFacts

structure NameMap (α : Type) where
  entries : List (String × α) := []

namespace NameMap

variable {α : Type}

def find? (map : NameMap α) (name : String) : Option α := map.entries.lookup name

def contains (map : NameMap α) (name : String) : Bool := (map.find? name).isSome

def keys (map : NameMap α) : List String := map.entries.map (·.1)

private def replace (name : String) (value : α) : List (String × α) → List (String × α)
  | [] => [(name, value)]
  | entry :: rest => if entry.1 = name then (name, value) :: rest else entry :: replace name value rest

/-- Gives `name` the value `value`; a later value takes the place of an earlier one. -/
def insert (map : NameMap α) (name : String) (value : α) : NameMap α := ⟨replace name value map.entries⟩

/-- Gives `name` the value `value` unless it has one. -/
def insertNew (map : NameMap α) (name : String) (value : α) : NameMap α :=
  if map.contains name then map else ⟨map.entries ++ [(name, value)]⟩

/-- The later of two values of one name counts. -/
def ofPairs (pairs : List (String × α)) : NameMap α :=
  pairs.foldl (fun map (name, value) => map.insert name value) {}

/-- The earlier of two values of one name counts. -/
def ofFirstPairs (pairs : List (String × α)) : NameMap α :=
  pairs.foldl (fun map (name, value) => map.insertNew name value) {}

private theorem lookup_replace (name other : String) (value : α) (entries : List (String × α)) :
    (replace name value entries).lookup other = if other = name then some value else entries.lookup other := by
  induction entries with
  | nil => simp only [replace, List.lookup_cons, List.lookup_nil]; split <;> simp_all
  | cons entry rest ih =>
    obtain ⟨key, old⟩ := entry
    by_cases same : key = name
    · subst same; simp only [replace, ↓reduceIte, List.lookup_cons]; split <;> simp_all
    · simp only [replace, if_neg same, List.lookup_cons, ih]; split <;> simp_all

theorem find?_insert (map : NameMap α) (name other : String) (value : α) :
    (map.insert name value).find? other = if other = name then some value else map.find? other :=
  lookup_replace name other value map.entries

theorem mem_entries_of_find? {map : NameMap α} {name : String} {value : α} (found : map.find? name = some value) :
    (name, value) ∈ map.entries := by
  obtain ⟨before, after, same, _⟩ := List.lookup_eq_some_iff.1 found
  simp [same]

theorem mem_keys_of_find? {map : NameMap α} {name : String} {value : α} (found : map.find? name = some value) :
    name ∈ map.keys := List.mem_map.2 ⟨_, mem_entries_of_find? found, rfl⟩

theorem contains_iff {map : NameMap α} {name : String} : map.contains name ↔ name ∈ map.keys := by
  simp only [contains, find?, keys, List.lookup_isSome_iff, List.mem_map, beq_iff_eq]
  exact exists_congr fun entry => and_congr_right fun _ => eq_comm

theorem mem_entries_insertNew {map : NameMap α} {name : String} {value : α} {entry : String × α}
    (member : entry ∈ (map.insertNew name value).entries) : entry ∈ map.entries ∨ entry = (name, value) := by
  unfold insertNew at member
  split at member
  · exact .inl member
  · simpa using member

private theorem keys_replace (name : String) (value : α) (entries : List (String × α)) :
    (replace name value entries).map (·.1) = addNew (entries.map (·.1)) name := by
  induction entries with
  | nil => rfl
  | cons entry rest ih => grind [replace, addNew]

theorem keys_insert (map : NameMap α) (name : String) (value : α) :
    (map.insert name value).keys = addNew map.keys name :=
  keys_replace name value map.entries

theorem keys_ofPairs (pairs : List (String × α)) : (ofPairs pairs).keys = distinct (pairs.map (·.1)) := by
  have general (pairs : List (String × α)) (map : NameMap α) :
      (pairs.foldl (fun map (name, value) => map.insert name value) map).keys =
          addAllNew map.keys (pairs.map (·.1)) := by
    induction pairs generalizing map with
    | nil => rfl
    | cons pair rest ih => rw [List.foldl_cons, ih, keys_insert, List.map_cons, addAllNew_cons]
  exact general pairs {}

theorem ofPairs_eq_empty {pairs : List (String × α)} : ofPairs pairs = {} ↔ pairs = [] := by
  refine ⟨fun empty => ?_, fun none => by rw [none]; rfl⟩
  have keys := keys_ofPairs pairs
  rw [empty] at keys
  refine List.eq_nil_iff_forall_not_mem.mpr fun pair member => ?_
  have inside : pair.1 ∈ distinct (pairs.map (·.1)) := mem_distinct.mpr (List.mem_map_of_mem member)
  rw [← keys] at inside
  cases inside

private theorem lookup_singleton (name other : String) (value : α) :
    [(name, value)].lookup other = if other = name then some value else none := by
  by_cases same : other = name <;> simp [same]

/-- Of two values of one name the later is found. -/
theorem find?_ofPairs (pairs : List (String × α)) (name : String) :
    (ofPairs pairs).find? name = pairs.reverse.lookup name := by
  have general (pairs : List (String × α)) (map : NameMap α) :
      (pairs.foldl (fun map (name, value) => map.insert name value) map).find? name =
        (pairs.reverse.lookup name).or (map.find? name) := by
    induction pairs generalizing map with
    | nil => rfl
    | cons pair rest ih =>
      obtain ⟨key, value⟩ := pair
      rw [List.foldl_cons, ih, find?_insert, List.reverse_cons, List.lookup_append, Option.or_assoc, lookup_singleton]
      split <;> simp
  exact (general pairs {}).trans (by simp [find?])

private theorem mem_replace {name : String} {value : α} {entries : List (String × α)} {entry : String × α}
    (member : entry ∈ replace name value entries) : entry ∈ entries ∨ entry = (name, value) := by
  induction entries with
  | nil => exact .inr (by simpa [replace] using member)
  | cons first rest ih => grind [replace]

/-- What the later of two values of one name leaves is among the pairs. -/
theorem mem_entries_ofPairs {pairs : List (String × α)} {entry : String × α}
    (member : entry ∈ (ofPairs pairs).entries) : entry ∈ pairs := by
  refine List.foldlRecOn (motive := fun map : NameMap α => entry ∈ map.entries → entry ∈ pairs) pairs _ ?_ ?_ member
  · simp
  · intro map kept pair inside member
    rcases mem_replace member with old | rfl
    · exact kept old
    · exact inside

theorem mem_entries_ofFirstPairs {pairs : List (String × α)} {entry : String × α}
    (member : entry ∈ (ofFirstPairs pairs).entries) : entry ∈ pairs := by
  refine List.foldlRecOn (motive := fun map : NameMap α => entry ∈ map.entries → entry ∈ pairs) pairs _ ?_ ?_ member
  · simp
  · intro map kept pair inside member
    rcases mem_entries_insertNew member with old | rfl
    · exact kept old
    · exact inside

theorem keys_insertNew (map : NameMap α) (name : String) (value : α) :
    (map.insertNew name value).keys = addNew map.keys name := by
  unfold insertNew addNew
  split
  next known => rw [if_pos (contains_iff.1 known)]
  next unknown => rw [if_neg (mt contains_iff.2 unknown), keys, List.map_append, List.map_singleton, keys]

theorem keys_ofFirstPairs (pairs : List (String × α)) : (ofFirstPairs pairs).keys = distinct (pairs.map (·.1)) := by
  have general (pairs : List (String × α)) (map : NameMap α) :
      (pairs.foldl (fun map (name, value) => map.insertNew name value) map).keys =
          addAllNew map.keys (pairs.map (·.1)) := by
    induction pairs generalizing map with
    | nil => rfl
    | cons pair rest ih => rw [List.foldl_cons, ih, keys_insertNew, List.map_cons, addAllNew_cons]
  exact general pairs {}

theorem find?_insertNew (map : NameMap α) (name other : String) (value : α) :
    (map.insertNew name value).find? other = (map.find? other).or (if other = name then some value else none) := by
  unfold insertNew
  split
  next known =>
    by_cases same : other = name
    · obtain ⟨old, found⟩ := Option.isSome_iff_exists.1 known
      rw [same, found, Option.some_or]
    · rw [if_neg same, Option.or_none]
  next => rw [find?, List.lookup_append, lookup_singleton, find?]

/-- Of two values of one name the earlier is found. -/
theorem find?_ofFirstPairs (pairs : List (String × α)) (name : String) :
    (ofFirstPairs pairs).find? name = pairs.lookup name := by
  have general : ∀ (pairs : List (String × α)) (map : NameMap α),
      (pairs.foldl (fun map (name, value) => map.insertNew name value) map).find? name =
        (map.find? name).or (pairs.lookup name) := by
    intro pairs
    induction pairs with
    | nil => intro map; simp
    | cons pair rest ih =>
      intro map
      obtain ⟨key, value⟩ := pair
      rw [List.foldl_cons, ih, find?_insertNew, Option.or_assoc, List.lookup_cons]
      by_cases same : name = key
      · simp [same]
      · simp [beq_eq_false_iff_ne.2 same, same]
  exact (general pairs {}).trans (by simp [find?])

theorem find?_ofFirstPairs_map {β : Type} (pairs : List (String × α)) (change : α → β) (name : String) :
    (ofFirstPairs (pairs.map fun (key, value) => (key, change value))).find? name = (pairs.lookup name).map change := by
  rw [find?_ofFirstPairs]
  induction pairs with
  | nil => rfl
  | cons pair rest ih =>
    rw [List.map_cons, List.lookup_cons, List.lookup_cons]
    cases name == pair.1 with
    | true => rfl
    | false => exact ih

theorem nodup_keys_insertNew {map : NameMap α} {name : String} {value : α} (once : map.keys.Nodup) :
    (map.insertNew name value).keys.Nodup := keys_insertNew map name value ▸ nodup_addNew once

theorem nodup_keys_ofFirstPairs (pairs : List (String × α)) : (ofFirstPairs pairs).keys.Nodup :=
  List.foldlRecOn (motive := fun map : NameMap α => map.keys.Nodup) pairs _ List.nodup_nil
    fun _ once _ _ => nodup_keys_insertNew once

end NameMap

end QueryFacts

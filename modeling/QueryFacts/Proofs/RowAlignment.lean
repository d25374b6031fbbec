import QueryFacts.Proofs.LiteralValues

/-! Columns and the values that are read for them. Both are told by their place in the statement,
though the two lists are put together by counting: an item may be read as no value or as more than
one, a column may be left out, and after DEFAULT nothing more is read. -/

namespace QueryFacts

/-- What a row has for a column. -/
inductive RowItem where
  | literal (value : Literal)
  | default
  | call (name : String) (arguments : List Literal)

namespace RowItem

/-- What an item is read as. A function is read as each of its arguments. -/
def values : RowItem → List Value
  | literal value => [value.value]
  | default => [.text "DEFAULT"]
  | call _ arguments => arguments.map Literal.value

def isDefault : RowItem → Bool
  | default => true
  | _ => false

def isLiteral : RowItem → Bool
  | literal _ => true
  | _ => false

theorem isDefault_of_silent {item : RowItem} (silent : item.values = []) : item.isDefault = false := by
  cases item with
  | default => cases silent
  | literal | call => rfl

end RowItem

structure Cell where
  column : String
  item : RowItem

namespace Cell

/-- The column, unless it is called like a function that is never one. -/
def listed (cell : Cell) : List String :=
  if Keyword.isIgnoredFunction (Keyword.normalForm cell.column) then [] else [cell.column]

/-- The columns that are listed, with their places. -/
def columns (place : Nat) : List Cell → List (Nat × String)
  | [] => []
  | cell :: rest => cell.listed.map (place, ·) ++ columns (place + 1) rest

/-- The values that are read, with the places of their items. -/
def values (place : Nat) : List Cell → List (Nat × Value)
  | [] => []
  | cell :: rest => cell.item.values.map (place, ·) ++ if cell.item.isDefault then [] else values (place + 1) rest

/-- The columns with the values that they are given. -/
def pairs (place : Nat) (cells : List Cell) : List ((Nat × String) × (Nat × Value)) :=
  (columns place cells).zip (values place cells)

/-- The values with the names of their columns, or with numbers if no column is listed. -/
def assigned (cells : List Cell) : List (String × Value) :=
  if columns 0 cells = [] then
    ((values 0 cells).map (·.2)).zipIdx.map fun (value, index) => ("column_" ++ toString (index + 1), value)
  else (pairs 0 cells).map fun pair => (pair.1.2, pair.2.2)

/-- Every literal is given to its column, and no column is given a value of another place. -/
structure Faithful (place : Nat) (cells : List Cell) : Prop where
  literals : ∀ cell ∈ cells, ∀ value, cell.item = .literal value →
    (cell.column, value.value) ∈ (pairs place cells).map fun pair => (pair.1.2, pair.2.2)
  places : ∀ pair ∈ pairs place cells, pair.1.1 = pair.2.1

/-- Of a cell with more values than columns the rest would go to columns further on, and a cell with
fewer would be given values from there. -/
def Aligned : List Cell → Prop
  | [] => True
  | cell :: rest =>
    match compare cell.listed.length cell.item.values.length with
    | .lt => (∀ other ∈ rest, other.listed = []) ∧ ∀ other ∈ cell :: rest, other.item.isLiteral = false
    | .gt => ∀ other ∈ rest, other.item.values = []
    | .eq => if cell.item.isDefault then ∀ other ∈ rest, other.item.isLiteral = false else Aligned rest

def decideAligned : (cells : List Cell) → Decidable (Aligned cells)
  | [] => isTrue trivial
  | cell :: rest =>
    have := decideAligned rest
    match same : compare cell.listed.length cell.item.values.length with
    | .lt =>
      decidable_of_iff ((∀ other ∈ rest, other.listed = []) ∧ ∀ other ∈ cell :: rest, other.item.isLiteral = false)
        (by rw [Aligned, same])
    | .gt => decidable_of_iff (∀ other ∈ rest, other.item.values = []) (by rw [Aligned, same])
    | .eq =>
      decidable_of_iff (if cell.item.isDefault then ∀ other ∈ rest, other.item.isLiteral = false else Aligned rest)
        (by rw [Aligned, same])

instance (cells : List Cell) : Decidable (Aligned cells) := decideAligned cells

variable {cell : Cell} {cells rest : List Cell} {place : Nat}

section Places

theorem mem_listed {name : String} (member : name ∈ cell.listed) : name = cell.column := by
  unfold listed at member
  split at member
  · cases member
  · exact List.mem_singleton.mp member

theorem length_listed (cell : Cell) : cell.listed.length ≤ 1 := by
  unfold listed
  split
  · exact Nat.zero_le 1
  · exact Nat.le_refl 1

theorem mem_columns {column : Nat × String} (member : column ∈ columns place cells) :
    place ≤ column.1 ∧ column.2 ∈ cells.map (·.column) := by
  induction cells generalizing place with
  | nil => cases member
  | cons cell rest ih =>
    rcases List.mem_append.mp member with here | later
    · obtain ⟨name, inside, rfl⟩ := List.mem_map.mp here
      exact ⟨Nat.le_refl place, List.mem_cons.mpr (.inl (mem_listed inside))⟩
    · obtain ⟨after, inside⟩ := ih later
      exact ⟨Nat.le_of_succ_le after, List.mem_cons_of_mem _ inside⟩

theorem le_of_mem_values {value : Nat × Value} (member : value ∈ values place cells) : place ≤ value.1 := by
  induction cells generalizing place with
  | nil => cases member
  | cons cell rest ih =>
    rcases List.mem_append.mp member with here | later
    · obtain ⟨read, -, rfl⟩ := List.mem_map.mp here
      exact Nat.le_refl place
    · split at later
      · cases later
      · exact Nat.le_of_succ_le (ih later)

theorem names_columns (place : Nat) (cells : List Cell) : (columns place cells).map (·.2) =
    (cells.map (·.column)).filter fun name => !Keyword.isIgnoredFunction (Keyword.normalForm name) := by
  induction cells generalizing place with
  | nil => rfl
  | cons cell rest ih =>
    rw [columns, List.map_append, ih, listed, List.map_cons, List.filter_cons]
    cases Keyword.isIgnoredFunction (Keyword.normalForm cell.column) <;> rfl

theorem columns_eq_nil_iff : columns place cells = [] ↔ ∀ cell ∈ cells, cell.listed = [] := by
  induction cells generalizing place with
  | nil => exact ⟨fun _ => List.forall_mem_nil _, fun _ => rfl⟩
  | cons cell rest ih => rw [columns, List.append_eq_nil_iff, List.map_eq_nil_iff, ih, List.forall_mem_cons]

theorem values_eq_nil_iff : values place cells = [] ↔ ∀ cell ∈ cells, cell.item.values = [] := by
  induction cells generalizing place with
  | nil => exact ⟨fun _ => List.forall_mem_nil _, fun _ => rfl⟩
  | cons cell rest ih =>
    rw [values, List.append_eq_nil_iff, List.map_eq_nil_iff, List.forall_mem_cons]
    refine and_congr_right fun silent => ?_
    rw [RowItem.isDefault_of_silent silent, if_neg Bool.false_ne_true, ih]

end Places

section Pairs

/-- As many values as the cell has columns are paired with these, and what is left over with what comes after. -/
theorem pairs_cons {first : List Value} {more : List Value} (split : cell.item.values = first ++ more)
    (same : cell.listed.length = first.length) :
    pairs place (cell :: rest) = (cell.listed.map (place, ·)).zip (first.map (place, ·)) ++
      (columns (place + 1) rest).zip
          (more.map (place, ·) ++ if cell.item.isDefault then [] else values (place + 1) rest) := by
  rw [pairs, columns, values, split, List.map_append, List.append_assoc, List.zip_append (by simpa using same)]

/-- The pairs of one cell stand in its place. -/
theorem mem_own {first : List Value} {pair : (Nat × String) × (Nat × Value)}
    (member : pair ∈ (cell.listed.map (place, ·)).zip (first.map (place, ·))) :
    pair.1.1 = pair.2.1 ∧ pair.1.2 = cell.column ∧ cell.listed ≠ [] := by
  obtain ⟨column, value⟩ := pair
  obtain ⟨left, right⟩ := List.of_mem_zip member
  obtain ⟨name, inside, rfl⟩ := List.mem_map.mp left
  obtain ⟨read, -, rfl⟩ := List.mem_map.mp right
  exact ⟨rfl, mem_listed inside, List.ne_nil_of_mem inside⟩

variable (apart : ((cell :: rest).map (·.column)).Nodup)
include apart

/-- No other cell has the column. -/
private theorem eq_of_column {other : Cell} (member : other ∈ cell :: rest)
    (same : other.column = cell.column) : other = cell := by
  rcases List.mem_cons.mp member with rfl | later
  · rfl
  · have twice : cell.column ∈ rest.map (·.column) := same ▸ List.mem_map_of_mem later
    exact absurd twice (List.nodup_cons.mp apart).1

theorem faithful_lt (fewer : cell.listed.length < cell.item.values.length) : Faithful place (cell :: rest) ↔
    (∀ other ∈ rest, other.listed = []) ∧ ∀ other ∈ cell :: rest, other.item.isLiteral = false := by
  obtain ⟨value, more, left⟩ : ∃ value more, cell.item.values.drop cell.listed.length = value :: more :=
    ⟨_, _, List.drop_eq_getElem_cons fewer⟩
  have split : cell.item.values = cell.item.values.take cell.listed.length ++ value :: more := by
    rw [← left, List.take_append_drop]
  have whole := @pairs_cons cell rest place _ _ split (List.length_take_of_le (Nat.le_of_lt fewer)).symm
  constructor
  · rintro ⟨literals, places⟩
    have none : columns (place + 1) rest = [] := by
      cases found : columns (place + 1) rest with
      | nil => rfl
      | cons column others =>
        have after := (mem_columns (found ▸ List.mem_cons_self : column ∈ columns (place + 1) rest)).1
        have paired : (column, (place, value)) ∈ pairs place (cell :: rest) := by
          rw [whole, found]
          exact List.mem_append_right _ List.mem_cons_self
        exact absurd (places _ paired) (Nat.ne_of_gt after)
    refine ⟨columns_eq_nil_iff.mp none, fun other member => ?_⟩
    rw [none, List.zip_nil_left, List.append_nil] at whole
    cases item : other.item with
    | default | call => rfl
    | literal given =>
      obtain ⟨pair, paired, told⟩ := List.mem_map.mp (literals other member given item)
      rw [whole] at paired
      obtain ⟨-, column, some⟩ := mem_own paired
      obtain rfl := eq_of_column apart member ((congrArg Prod.fst told).symm.trans column)
      rw [item] at fewer
      exact absurd (List.length_pos_of_ne_nil some) (Nat.not_lt.mpr (Nat.le_of_lt_succ fewer))
  · rintro ⟨unlisted, noLiteral⟩
    rw [columns_eq_nil_iff.mpr unlisted, List.zip_nil_left, List.append_nil] at whole
    refine ⟨fun other member given item => ?_, fun pair paired => ?_⟩
    · have literal := noLiteral other member
      rw [item] at literal
      cases literal
    · exact (mem_own (whole ▸ paired)).1

omit apart in
theorem faithful_gt (fewer : cell.item.values.length < cell.listed.length) :
    Faithful place (cell :: rest) ↔ ∀ other ∈ rest, other.item.values = [] := by
  have silent : cell.item.values = [] :=
    List.length_eq_zero_iff.mp (Nat.lt_one_iff.mp (Nat.lt_of_lt_of_le fewer (length_listed cell)))
  obtain ⟨name, more, columns'⟩ := List.exists_cons_of_length_pos (Nat.lt_of_le_of_lt (Nat.zero_le _) fewer)
  have whole : pairs place (cell :: rest) =
      ((place, name) :: (more.map (place, ·) ++ columns (place + 1) rest)).zip (values (place + 1) rest) := by
    rw [pairs, columns, values, silent, columns', RowItem.isDefault_of_silent silent]
    rfl
  rw [← @values_eq_nil_iff rest (place + 1)]
  constructor
  · rintro ⟨-, places⟩
    cases found : values (place + 1) rest with
    | nil => rfl
    | cons value others =>
      have after := le_of_mem_values (found ▸ List.mem_cons_self : value ∈ values (place + 1) rest)
      have paired : ((place, name), value) ∈ pairs place (cell :: rest) := by
        rw [whole, found]
        exact List.mem_cons_self
      exact absurd (places _ paired) (Nat.ne_of_lt after)
  · intro nothing
    rw [nothing, List.zip_nil_right] at whole
    refine ⟨fun other member given item => ?_, fun pair paired => ?_⟩
    · have silent' : other.item.values = [] := by
        rcases List.mem_cons.mp member with rfl | inside
        · exact silent
        · exact values_eq_nil_iff.mp nothing other inside
      rw [item] at silent'
      cases silent'
    · rw [whole] at paired
      cases paired

theorem faithful_eq (same : cell.listed.length = cell.item.values.length) : Faithful place (cell :: rest) ↔
    if cell.item.isDefault then ∀ other ∈ rest, other.item.isLiteral = false else Faithful (place + 1) rest := by
  have whole := @pairs_cons cell rest place _ [] (List.append_nil _).symm same
  rw [List.map_nil, List.nil_append] at whole
  /- A literal further on is none of the pairs of the cell. -/
  have other_pair {other : Cell} (member : other ∈ rest) {value : Value}
      {pair : (Nat × String) × (Nat × Value)}
      (own : pair ∈ (cell.listed.map (place, ·)).zip (cell.item.values.map (place, ·)))
      (told : (pair.1.2, pair.2.2) = (other.column, value)) : False := by
    have column := (congrArg Prod.fst told).symm.trans (mem_own own).2.1
    have twice : cell.column ∈ rest.map (·.column) := List.mem_map.mpr ⟨other, member, column⟩
    exact (List.nodup_cons.mp apart).1 twice
  cases ends : cell.item.isDefault with
  | true =>
    rw [ends, if_pos rfl, List.zip_nil_right, List.append_nil] at whole
    rw [if_pos rfl]
    constructor
    · rintro ⟨literals, -⟩ other member
      cases item : other.item with
      | default | call => rfl
      | literal given =>
        obtain ⟨pair, paired, told⟩ := List.mem_map.mp (literals other (List.mem_cons_of_mem _ member) given item)
        exact (other_pair member (whole ▸ paired) told).elim
    · intro noLiteral
      refine ⟨fun other member given item => ?_, fun pair paired => (mem_own (whole ▸ paired)).1⟩
      rcases List.mem_cons.mp member with rfl | inside
      · rw [item] at ends
        cases ends
      · have literal := noLiteral other inside
        rw [item] at literal
        cases literal
  | false =>
    rw [ends, if_neg Bool.false_ne_true] at whole
    rw [if_neg Bool.false_ne_true]
    have mem_pairs {pair : (Nat × String) × (Nat × Value)} : pair ∈ pairs place (cell :: rest) ↔
        pair ∈ (cell.listed.map (place, ·)).zip (cell.item.values.map (place, ·)) ∨ pair ∈ pairs (place + 1) rest := by
      rw [whole, List.mem_append]
      rfl
    constructor
    · rintro ⟨literals, places⟩
      refine ⟨fun other member given item => ?_, fun pair paired => places pair (mem_pairs.mpr (.inr paired))⟩
      obtain ⟨pair, paired, told⟩ := List.mem_map.mp (literals other (List.mem_cons_of_mem _ member) given item)
      rcases mem_pairs.mp paired with own | later
      · exact (other_pair member own told).elim
      · exact List.mem_map.mpr ⟨pair, later, told⟩
    · rintro ⟨literals, places⟩
      refine ⟨fun other member given item => ?_, fun pair paired => ?_⟩
      · rcases List.mem_cons.mp member with rfl | inside
        · have one : other.listed = [other.column] := by
            rw [item] at same
            obtain ⟨name, listed⟩ := List.length_eq_one_iff.mp same
            rw [listed, mem_listed (listed ▸ List.mem_singleton_self name : name ∈ other.listed)]
          refine List.mem_map.mpr ⟨((place, other.column), (place, given.value)), mem_pairs.mpr (.inl ?_), rfl⟩
          rw [one, item]
          exact List.mem_singleton_self _
        · obtain ⟨pair, paired, told⟩ := List.mem_map.mp (literals other inside given item)
          exact List.mem_map.mpr ⟨pair, mem_pairs.mpr (.inr paired), told⟩
      · rcases mem_pairs.mp paired with own | later
        · exact (mem_own own).1
        · exact places pair later

end Pairs

/-- The values are given to their columns if in each cell there are as many of them as of columns, up to where the rest
would not be missed. -/
theorem faithful_iff_aligned (apart : (cells.map (·.column)).Nodup) : Faithful place cells ↔ Aligned cells := by
  induction cells generalizing place with
  | nil => exact ⟨fun _ => trivial, fun _ => ⟨List.forall_mem_nil _, List.forall_mem_nil _⟩⟩
  | cons cell rest ih =>
    unfold Aligned
    cases order : compare cell.listed.length cell.item.values.length with
    | lt => exact faithful_lt apart (Nat.compare_eq_lt.mp order)
    | gt => exact faithful_gt (Nat.compare_eq_gt.mp order)
    | eq =>
      rw [faithful_eq apart (Nat.compare_eq_eq.mp order), ih (List.nodup_cons.mp apart).2]

section Names

theorem assigned_eq (cells : List Cell) : (match (columns 0 cells).map (·.2) with
    | [] => ((values 0 cells).map (·.2)).zipIdx.map fun (value, index) => ("column_" ++ toString (index + 1), value)
    | columns => columns.zip ((values 0 cells).map (·.2))) = assigned cells := by
  unfold assigned pairs
  cases columns 0 cells with
  | nil => rfl
  | cons column others =>
    rw [if_neg (List.cons_ne_nil _ _)]
    exact List.zip_map ..

/-- A column with the name of a number is no function. -/
private theorem listed_of_numbered {number : String} (numbered : cell.column = "column_" ++ number) :
    cell.listed = [cell.column] := by
  have others : ∀ word ∈ Keyword.ignoredFunctions, "COLUMN_".toList.isPrefixOf word.toList = false := by decide
  have begins : Keyword.normalForm "column_" = "COLUMN_" := by decide
  refine if_neg fun ignored => ?_
  have whole := others _ (List.contains_iff_mem.mp ignored)
  rw [numbered, Proofs.JoinKeywords.normalForm_append, begins, String.toList_append, List.isPrefixOf_iff_prefix.mpr
    (List.prefix_append _ _)] at whole
  cases whole

/-- The columns are given their values by name. -/
theorem mem_assigned_iff (member : cell ∈ cells) {value : Value} : (cell.column, value) ∈ assigned cells ↔
    (cell.column, value) ∈ (pairs 0 cells).map fun pair => (pair.1.2, pair.2.2) := by
  unfold assigned
  split
  next none =>
    have nothing : pairs 0 cells = [] := by rw [pairs, none, List.zip_nil_left]
    rw [nothing, List.map_nil]
    refine iff_of_false (fun numbered => ?_) List.not_mem_nil
    obtain ⟨entry, -, told⟩ := List.mem_map.mp numbered
    have listed := listed_of_numbered (congrArg Prod.fst told).symm
    rw [columns_eq_nil_iff.mp none cell member] at listed
    cases listed
  next => rfl

theorem assigned_iff_aligned (apart : (cells.map (·.column)).Nodup) :
    ((∀ cell ∈ cells, ∀ value, cell.item = .literal value → (cell.column, value.value) ∈ assigned cells) ∧
      ∀ pair ∈ pairs 0 cells, pair.1.1 = pair.2.1) ↔ Aligned cells := by
  rw [← @faithful_iff_aligned cells 0 apart]
  constructor
  · rintro ⟨literals, places⟩
    exact ⟨fun cell member value item => (mem_assigned_iff member).mp (literals cell member value item), places⟩
  · rintro ⟨literals, places⟩
    exact ⟨fun cell member value item => (mem_assigned_iff member).mpr (literals cell member value item), places⟩

end Names

end Cell

end QueryFacts

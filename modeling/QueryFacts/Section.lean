import QueryFacts.Distinct

/-! The clauses in which a statement refers to columns, and names grouped by clause. -/

namespace QueryFacts

inductive Section where
  | select
  | filter
  | orderBy
  | groupBy
  | join
  | insert
  | update
  | having
  deriving DecidableEq

namespace Section

/-- The clause that a keyword in normal form opens. -/
def ofKeyword? : String → Option Section
  | "SELECT" => some select
  | "WHERE" => some filter
  | "ORDERBY" => some orderBy
  | "GROUPBY" => some groupBy
  | "ON" => some join
  | "USING" => some join
  | "INTO" => some insert
  | "SET" => some update
  | "HAVING" => some having
  | _ => none

def name : Section → String
  | select => "select"
  | filter => "where"
  | orderBy => "order_by"
  | groupBy => "group_by"
  | join => "join"
  | insert => "insert"
  | update => "update"
  | having => "having"

theorem eq_of_ctorIdx_eq {first second : Section} (same : first.ctorIdx = second.ctorIdx) : first = second := by
  cases first <;> cases second <;> first | rfl | exact absurd same (by decide)

end Section

/-- Names grouped by clause, each clause at most once and in the order of `Section`. -/
abbrev SectionMap := List (Section × List String)

namespace SectionMap

/-- Adds the names that a clause does not have yet. -/
def add (sec : Section) (names : List String) : SectionMap → SectionMap
  | [] => [(sec, distinct names)]
  | (other, known) :: rest =>
    if other = sec then (other, addAllNew known names) :: rest
    else if sec.ctorIdx < other.ctorIdx then (sec, distinct names) :: (other, known) :: rest
    else (other, known) :: add sec names rest

def find? (map : SectionMap) (sec : Section) : Option (List String) := map.lookup sec

/-- The names of all clauses. -/
def names (map : SectionMap) : List String := map.flatMap (·.2)

theorem names_cons (entry : Section × List String) (rest : SectionMap) :
    SectionMap.names (entry :: rest) = entry.2 ++ rest.names := List.flatMap_cons

theorem mem_add {sec : Section} {names : List String} {map : SectionMap} {entry : Section × List String}
    (member : entry ∈ map.add sec names) :
    entry ∈ map ∨ ∃ known, (known = [] ∨ (sec, known) ∈ map) ∧ entry = (sec, addAllNew known names) := by
  induction map with
  | nil => exact .inr ⟨[], .inl rfl, by simpa [add, distinct] using member⟩
  | cons first rest ih => grind [add, distinct]

theorem mem_names_add {sec : Section} {names : List String} {map : SectionMap} {name : String} :
    name ∈ (map.add sec names).names ↔ name ∈ map.names ∨ name ∈ names := by
  induction map with
  | nil => simp [add, SectionMap.names, mem_distinct]
  | cons first rest ih =>
    unfold add
    split
    · simp only [names_cons, List.mem_append, mem_addAllNew, or_right_comm]
    · split
      · simp only [names_cons, List.mem_append, mem_distinct, or_comm]
      · simp only [names_cons, List.mem_append, ih, or_assoc]

/-- The clauses are in their order, and each has names, each name once. -/
structure Proper (map : SectionMap) : Prop where
  ordered : map.Pairwise fun first second => first.1.ctorIdx < second.1.ctorIdx
  once : ∀ entry ∈ map, entry.2.Nodup
  named : ∀ entry ∈ map, entry.2 ≠ []

theorem Proper.empty : Proper [] := ⟨.nil, by simp, by simp⟩

theorem ordered_add {sec : Section} {names : List String} {map : SectionMap}
    (ordered : map.Pairwise fun first second => first.1.ctorIdx < second.1.ctorIdx) :
    (map.add sec names).Pairwise fun first second => first.1.ctorIdx < second.1.ctorIdx := by
  induction map with
  | nil => simp [add]
  | cons first rest ih =>
    obtain ⟨below, sorted⟩ := List.pairwise_cons.1 ordered
    unfold add
    split
    · exact List.pairwise_cons.2 ⟨below, sorted⟩
    · split
      next earlier =>
        refine List.pairwise_cons.2 ⟨fun entry member => ?_, ordered⟩
        rcases List.mem_cons.1 member with rfl | later
        · exact earlier
        · exact Nat.lt_trans earlier (below entry later)
      next other late =>
        refine List.pairwise_cons.2 ⟨fun entry member => ?_, ih sorted⟩
        rcases mem_add member with old | ⟨known, -, rfl⟩
        · exact below entry old
        · exact Nat.lt_of_le_of_ne (Nat.not_lt.1 late) (mt Section.eq_of_ctorIdx_eq other)

theorem Proper.add {sec : Section} {names : List String} {map : SectionMap} (proper : map.Proper) (more : names ≠ []) :
    (map.add sec names).Proper where
  ordered := ordered_add proper.ordered
  once entry member := by
    rcases mem_add member with old | ⟨known, rfl | old, rfl⟩
    · exact proper.once entry old
    · exact nodup_addAllNew List.nodup_nil
    · exact nodup_addAllNew (proper.once _ old)
  named entry member := by
    rcases mem_add member with old | ⟨known, -, rfl⟩
    · exact proper.named entry old
    · exact addAllNew_ne_nil more

end SectionMap

end QueryFacts

import QueryFacts.Distinct

/-! Names that stand for other names, and the depth-first walk that replaces a name by
the names it finally stands for. The walk opens every name at most once, so it ends on
cyclic graphs too: a name met again stands for itself. -/

namespace QueryFacts

/-- Opening a name may fail, and `none` says that a name stands for itself. -/
structure NameGraph (ε : Type) where
  successors : String → Option (Except ε (List String))
  /-- The names that a walk can open apart from those it starts with. It is a function
  because the walk itself never asks for them. -/
  inner : Unit → List String
  closed : ∀ {name found other}, successors name = some (.ok found) → other ∈ found →
    (successors other).isSome → other = name ∨ other ∈ inner ()

namespace NameGraph

variable {ε : Type}

/-- How many entries of `names` the walk has not opened. -/
def unopened (names opened : List String) : Nat :=
  match names with
  | [] => 0
  | name :: rest => (if name ∈ opened then 0 else 1) + unopened rest opened

private theorem unopened_le (names opened : List String) (name : String) :
    unopened names (name :: opened) ≤ unopened names opened := by
  induction names with
  | nil => simp [unopened]
  | cons head rest ih => grind [unopened]

private theorem unopened_lt {names opened : List String} {name : String} (inside : name ∈ names)
    (fresh : name ∉ opened) : unopened names (name :: opened) < unopened names opened := by
  induction names with
  | nil => simp at inside
  | cons head rest ih =>
    have most := unopened_le rest opened name
    grind [unopened]

/-- Replaces each of `pending` by what it stands for, left to right, and appends the
names reached to `out`, each once. -/
def walk (graph : NameGraph ε) (start pending opened out : List String)
    (inside : ∀ name ∈ pending, (graph.successors name).isSome → name ∈ start ++ graph.inner ()) :
    Except ε (List String) :=
  match pending with
  | [] => .ok out
  | name :: rest =>
    have later : ∀ other ∈ rest, (graph.successors other).isSome → other ∈ start ++ graph.inner () :=
      fun other member => inside other (List.mem_cons_of_mem _ member)
    match opening : graph.successors name with
    | none => walk graph start rest opened (addNew out name) later
    | some result =>
      if seen : name ∈ opened then walk graph start rest opened (addNew out name) later
      else match result with
        | .error error => .error error
        | .ok found => walk graph start (found ++ rest) (name :: opened) out fun other member opens => by
            rcases List.mem_append.1 member with new | old
            · rcases graph.closed opening new opens with rfl | known
              · exact inside other (List.mem_cons_self ..) opens
              · exact List.mem_append_right _ known
            · exact later other old opens
termination_by (unopened (start ++ graph.inner ()) opened, pending.length)
decreasing_by
  · exact Prod.Lex.right _ (Nat.lt_succ_self _)
  · exact Prod.Lex.right _ (Nat.lt_succ_self _)
  · exact Prod.Lex.left _ _ (unopened_lt (inside name (List.mem_cons_self ..) (by simp [opening])) seen)

/-- What the names of `start` stand for, with the names of `opened` not to be opened again. -/
def leaves (graph : NameGraph ε) (start opened : List String) : Except ε (List String) :=
  graph.walk start start opened [] fun _ member _ => List.mem_append_left _ member

/-- A walk reaches names that it started with and names that others stand for. -/
theorem mem_walk {graph : NameGraph ε} {start pending opened out : List String}
    {inside : ∀ name ∈ pending, (graph.successors name).isSome → name ∈ start ++ graph.inner ()}
    {reached : List String} (ends : graph.walk start pending opened out inside = .ok reached)
    {other : String} (member : other ∈ reached) :
    other ∈ out ∨ other ∈ pending ∨ ∃ name found, graph.successors name = some (.ok found) ∧ other ∈ found := by
  fun_induction walk graph start pending opened out inside <;> grind [mem_addNew]

theorem mem_leaves {graph : NameGraph ε} {start opened reached : List String}
    (ends : graph.leaves start opened = .ok reached) {other : String} (member : other ∈ reached) :
    other ∈ start ∨ ∃ name found, graph.successors name = some (.ok found) ∧ other ∈ found := by
  simpa using mem_walk ends member

end NameGraph

end QueryFacts

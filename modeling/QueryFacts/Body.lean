import QueryFacts.Error
import QueryFacts.Facts
import QueryFacts.Text.Qualified

/-! The bodies of sub-queries and common table expressions. A column of such a body is
traced to the columns that the body takes it from, through as many bodies as needed. -/

namespace QueryFacts
open Text

structure Bodies where
  /-- The facts of each body, found when they are first asked for. -/
  facts : NameMap (Thunk (Except Error Facts)) := {}
  /-- The column names declared for common table expressions. -/
  columnLists : NameMap (List String) := {}

namespace Bodies

def contains (bodies : Bodies) (name : String) : Bool := bodies.facts.contains name

/-- The facts of a body. Nothing is known about a body that is wrong in itself, but one
that is nested too deep is an error of the whole statement. -/
def facts? (bodies : Bodies) (name : String) : Except Error (Option Facts) :=
  match bodies.facts.find? name with
  | none => .ok none
  | some body => match body.get with
    | .ok facts => .ok (some facts)
    | .error (.recursionLimit depth limit) => .error (.recursionLimit depth limit)
    | .error _ => .ok none

/-- What a column of a body with known facts is. `position` is its place in a declared
column list. -/
def columnOf (facts : Facts) (position : Option Nat) (literal column : String) : List String :=
  if column = "*" then
    if facts.selected = [] ∨ "*" ∈ facts.selected then [literal] else facts.selected
  else if facts.aliases.contains column then Alias.resolve facts.aliases column
  else match facts.columns.find? fun other => other == column || lastPart other == column with
    | some found => [found]
    | none => match position.bind (facts.selected[·]?) with
      | some found => [found]
      | none =>
        if facts.selected.any fun other => ['.', '*'].isSuffixOf other.toList then [column] else [literal]

/-- What a column of a named body is in the words of the body, or the column as written
when the body does not say. -/
def lookUp (bodies : Bodies) (name column : String) : Except Error (List String) :=
  (bodies.facts? name).map fun
    | none => [qualify name column]
    | some facts =>
      columnOf facts ((bodies.columnLists.find? name).bind (·.idxOf? column)) (qualify name column) column

/-- The column at a place in the select list of a named body. -/
def selectedAt (bodies : Bodies) (name : String) (position : Nat) : Except Error (Option String) :=
  (bodies.facts? name).map fun facts => facts.bind (·.selected[position]?)

/-- All names in the facts of a body. -/
private def factNames (facts : Facts) : List String :=
  facts.columns ++ facts.selected ++ facts.aliases.entries.flatMap (·.2.names)

private def vocabulary (bodies : Bodies) : List String :=
  bodies.facts.entries.flatMap fun (_, body) => match body.get with
    | .ok facts => factNames facts
    | .error _ => []

private theorem mem_columnOf {facts : Facts} {position : Option Nat} {literal column other : String}
    (member : other ∈ columnOf facts position literal column) :
    other = literal ∨ other = column ∨ other ∈ factNames facts := by
  unfold columnOf at member
  simp only [factNames, List.mem_append, List.mem_flatMap]
  split at member
  · split at member
    · exact .inl (by simpa using member)
    · exact .inr (.inr (.inl (.inr member)))
  · split at member
    · rcases Alias.mem_resolve member with same | ⟨key, target, known, inside⟩
      · exact .inr (.inl same)
      · exact .inr (.inr (.inr ⟨(key, target), NameMap.mem_entries_of_find? known, inside⟩))
    · split at member
      next found known =>
        obtain rfl : other = found := by simpa using member
        exact .inr (.inr (.inl (.inl (List.mem_of_find?_eq_some known))))
      · split at member
        next found known =>
          obtain rfl : other = found := by simpa using member
          obtain ⟨place, _, there⟩ := Option.bind_eq_some_iff.1 known
          exact .inr (.inr (.inl (.inr (List.mem_of_getElem? there))))
        · split at member
          · exact .inr (.inl (by simpa using member))
          · exact .inl (by simpa using member)

private theorem mem_lookUp {bodies : Bodies} {name column other : String} {found : List String}
    (known : bodies.lookUp name column = .ok found) (member : other ∈ found) :
    other = qualify name column ∨ other = column ∨ other ∈ bodies.vocabulary := by
  unfold lookUp facts? at known
  split at known
  · cases known; exact .inl (by simpa using member)
  next body there =>
    split at known
    next facts ends =>
      cases known
      rcases mem_columnOf member with same | same | inside
      · exact .inl same
      · exact .inr (.inl same)
      · refine .inr (.inr (List.mem_flatMap.2 ⟨(name, body), NameMap.mem_entries_of_find? there, ?_⟩))
        simpa [ends] using inside
    · cases known
    · cases known; exact .inl (by simpa using member)

/-- A qualified name stands for what it is in the words of its body, if the qualifier
names one. -/
def graph (bodies : Bodies) : NameGraph Error where
  successors name := (splitQualified? name).bind fun (qualifier, column) =>
    if bodies.contains qualifier then some (bodies.lookUp qualifier column) else none
  inner _ := bodies.vocabulary
  closed := by
    intro name found other opening member opens
    obtain ⟨⟨qualifier, column⟩, split, known⟩ := Option.bind_eq_some_iff.1 opening
    have known : bodies.lookUp qualifier column = .ok found := by
      simp only at known; split at known <;> simp_all
    rcases mem_lookUp known member with same | same | inside
    · exact .inl (same.trans (qualify_of_split split))
    · rw [same, splitQualified?_last split] at opens
      exact absurd opens (by simp)
    · exact .inr inside

/-- The columns that a column of a named body finally comes from. -/
def resolve (bodies : Bodies) (name column : String) : Except Error (List String) :=
  match bodies.lookUp name column with
  | .error error => .error error
  | .ok found => bodies.graph.leaves found [qualify name column]

end Bodies

end QueryFacts

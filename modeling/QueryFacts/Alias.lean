import QueryFacts.NameGraph
import QueryFacts.NameMap

/-! What the aliases of columns stand for. -/

namespace QueryFacts

inductive AliasTarget where
  /-- The alias renames one column. -/
  | column (name : String)
  /-- The alias names an expression over several columns. -/
  | columns (names : List String)
  deriving DecidableEq

def AliasTarget.names : AliasTarget → List String
  | column name => [name]
  | columns names => names

namespace Alias

def graph (aliases : NameMap AliasTarget) : NameGraph Empty where
  successors name := (aliases.find? name).map fun target => .ok target.names
  inner _ := aliases.keys
  closed _ _ opens := by
    obtain ⟨target, found⟩ := Option.isSome_iff_exists.1 (Option.isSome_map ▸ opens)
    exact .inr (NameMap.mem_keys_of_find? found)

/-- The columns that a name finally stands for. A name on a cycle of aliases stands for
the first name that comes up a second time. -/
def resolve (aliases : NameMap AliasTarget) (name : String) : List String :=
  match (graph aliases).leaves [name] [] with
  | .ok names => names
  | .error never => nomatch never

theorem mem_resolve {aliases : NameMap AliasTarget} {name other : String} (member : other ∈ resolve aliases name) :
    other = name ∨ ∃ key target, aliases.find? key = some target ∧ other ∈ target.names := by
  unfold resolve at member
  split at member
  next names ends =>
    rcases NameGraph.mem_leaves ends member with start | ⟨key, found, opening, inside⟩
    · exact .inl (by simpa using start)
    · obtain ⟨target, known, same⟩ := Option.map_eq_some_iff.1 opening
      cases same
      exact .inr ⟨key, target, known, inside⟩
  next never _ => exact nomatch never

end Alias

end QueryFacts

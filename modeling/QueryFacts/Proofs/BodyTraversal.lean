import QueryFacts.Proofs.BodyResolution
import QueryFacts.Proofs.CoherentFacts
import QueryFacts.Proofs.Traversal

/-! Columns traced through any set of named bodies, however they refer to each other.
Tracing opens a dotted name once, and the names that it can open are written in the bodies,
so it ends; only bodies that are nested too deep are an error. What it gives is never empty
and holds no name twice, and a reference that comes back to where it started is among it. -/

namespace QueryFacts

/-- The facts of a body of a statement that is `depth` bodies deep itself. -/
def bodyFacts (limits : Limits) : (levels depth : Nat) → String → Except Error Facts
  | 0, depth, _ => .error (.recursionLimit (depth + 1) limits.maxRecursionDepth)
  | levels + 1, depth, text => factsWithin limits levels (depth + 1) text

theorem factsWithin_eq (limits : Limits) (levels depth : Nat) (text : String) :
    factsWithin limits levels depth text = statementFacts limits text (bodyFacts limits levels depth) := by
  cases levels with
  | zero => rfl
  | succ levels => rfl

/-- In the facts of a body every alias stands for something, at whatever depth it stands. -/
theorem names_of_bodyFacts {limits : Limits} {levels depth : Nat} {text : String} {facts : Facts}
    (analyzed : bodyFacts limits levels depth text = .ok facts) {label : String} {target : AliasTarget}
    (member : (label, target) ∈ facts.aliases.entries) : target.names ≠ [] := by
  induction levels generalizing depth text facts label target with
  | zero => cases analyzed
  | succ levels ih =>
    have whole : statementFacts limits text (bodyFacts limits levels (depth + 1)) = .ok facts :=
      factsWithin_eq limits levels (depth + 1) text ▸ analyzed
    obtain ⟨-, kind, -, -, coherent⟩ :=
      Proofs.CoherentFacts.coherent_statementFacts (fun _ _ inner _ _ inside => ih inner inside) whole
    exact (coherent.aliases label target member).2.1

namespace Bodies

/-- Bodies with these names and texts, in a statement `depth` bodies deep. -/
def ofTexts (limits : Limits) (levels depth : Nat) (texts : List (String × String))
    (columnLists : NameMap (List String)) : Bodies where
  facts :=
    NameMap.ofFirstPairs (texts.map fun (name, text) => (name, Thunk.mk fun _ => bodyFacts limits levels depth text))
  columnLists := columnLists

/-- The bodies of every statement are of this form. -/
theorem exists_ofTexts (limits : Limits) (levels depth : Nat) (tokens : TokenSequence) (clause : WithClause)
    (subqueries : NameMap String) : ∃ texts columnLists,
      ofStatement tokens clause subqueries (bodyFacts limits levels depth) =
          ofTexts limits levels depth texts columnLists :=
  ⟨_, _, rfl⟩

theorem filled_ofTexts (limits : Limits) (levels depth : Nat) (texts : List (String × String))
    (columnLists : NameMap (List String)) : (ofTexts limits levels depth texts columnLists).Filled := by
  intro name body facts member ends label target inside
  obtain ⟨⟨key, text⟩, -, same⟩ := List.mem_map.mp (NameMap.mem_entries_ofFirstPairs member)
  cases same
  exact names_of_bodyFacts ends inside

end Bodies

end QueryFacts

namespace QueryFacts.Proofs.BodyTraversal
open Relation Text Unfolding Traversal

/-- A walk that fails does so at a name that cannot be opened. -/
theorem exists_error_of_walk {ε : Type} {graph : NameGraph ε} {start pending opened out : List String}
    {inside : ∀ name ∈ pending, (graph.successors name).isSome → name ∈ start ++ graph.inner ()} {error : ε}
    (fails : graph.walk start pending opened out inside = .error error) :
    ∃ name, graph.successors name = some (.error error) := by
  fun_induction NameGraph.walk graph start pending opened out inside with
  | case1 => cases fails
  | case2 opened out name rest _ _ closed _ ih => exact ih fails
  | case3 opened out name rest _ _ result opening known _ ih => exact ih fails
  | case4 opened out name rest _ _ fresh failed opening _ =>
    cases fails
    exact ⟨name, opening⟩
  | case5 opened out name rest _ _ fresh names _ _ opening ih => exact ih fails

section Bodies
variable {bodies : Bodies} {name column : String}

theorem limit_of_lookUp {error : Error} (fails : bodies.lookUp name column = .error error) :
    ∃ level limit, error = .recursionLimit level limit := by
  unfold Bodies.lookUp Bodies.facts? at fails
  split at fails
  · cases fails
  · split at fails
    · cases fails
    next level limit deep =>
      cases fails
      exact ⟨level, limit, rfl⟩
    · cases fails

/-- Only bodies that are nested too deep keep a column from being traced. -/
theorem limit_of_resolve {error : Error} (fails : bodies.resolve name column = .error error) :
    ∃ level limit, error = .recursionLimit level limit := by
  unfold Bodies.resolve at fails
  split at fails
  next failed known =>
    cases fails
    exact limit_of_lookUp known
  next found known =>
    obtain ⟨dotted, opening⟩ := exists_error_of_walk fails
    obtain ⟨source, -, failed⟩ := Option.bind_eq_some_iff.mp opening
    exact limit_of_lookUp (Option.some.inj (Option.ite_none_right_eq_some.mp failed).2)

/-- What each name stands for while a column of a body is traced. The name that tracing
starts with is not split at its last dot, but stands for what is found for the column. -/
def tracing (bodies : Bodies) (name column : String) : Links := fun dotted =>
  if dotted = qualify name column then some ((bodies.lookUp name column).toOption.getD [])
  else BodyResolution.links bodies dotted

theorem linksFrom_eq {found : List String} (known : bodies.lookUp name column = .ok found) :
    linksFrom bodies.graph (qualify name column) found = tracing bodies name column := by
  funext dotted
  unfold linksFrom tracing
  split
  · rw [known]
    rfl
  · simp only [Bodies.graph, BodyResolution.links, Option.map_bind, Function.comp_def]
    congr
    funext source
    split <;> rfl

theorem visits_of_resolve {reached : List String} (ends : bodies.resolve name column = .ok reached) :
    ∃ found calls opened, bodies.lookUp name column = .ok found ∧
      Visits (tracing bodies name column) [qualify name column] [] [] calls opened reached := by
  unfold Bodies.resolve at ends
  split at ends
  · cases ends
  next found known =>
    obtain ⟨opened, walks, -⟩ := walks_of_walk found List.mem_cons_self ends
    rw [linksFrom_eq known] at walks
    have opening : tracing bodies name column (qualify name column) = some found := by
      simp [tracing, known, Except.toOption]
    obtain ⟨calls, visits⟩ := exists_visits (.opens List.not_mem_nil opening walks .done)
    exact ⟨found, calls, opened, known, visits⟩

/-- What tracing can open is found for the column that it starts with, or stands in a body. -/
theorem mem_of_opens {found : List String} (known : bodies.lookUp name column = .ok found) {dotted : String}
    (path : ReflTransGen (Goes (tracing bodies name column)) (qualify name column) dotted)
    (opens : (tracing bodies name column dotted).isSome) :
    dotted ∈ qualify name column :: (found ++ bodies.graph.inner ()) := by
  induction path with
  | refl => exact List.mem_cons_self
  | @tail before last path goes ih =>
    by_cases root : last = qualify name column
    · exact List.mem_cons.mpr (.inl root)
    by_cases start : before = qualify name column
    · have inside : last ∈ found := by simpa [Goes, targets, tracing, start, known, Except.toOption] using goes
      exact List.mem_cons_of_mem _ (List.mem_append_left _ inside)
    · obtain ⟨names, opening⟩ := Option.isSome_iff_exists.mp (isSome_of_goes goes)
      have inside : last ∈ names := targets_of_some opening ▸ goes
      rw [← linksFrom_eq known, linksFrom, if_neg start] at opening
      obtain ⟨result, successors, same⟩ := Option.map_eq_some_iff.mp opening
      rw [← linksFrom_eq known, linksFrom, if_neg root, Option.isSome_map] at opens
      cases result with
      | error error => simp [Except.toOption, ← same] at inside
      | ok names =>
        obtain rfl : names = _ := same
        rcases bodies.graph.closed successors inside opens with rfl | listed
        · exact ih (isSome_of_goes goes)
        · exact List.mem_cons_of_mem _ (List.mem_append_right _ listed)

end Bodies

/-- For every set of named bodies, at any depth and with any column lists, tracing a column
ends. Unless bodies are nested too deep, it gives at least one name, and none twice. It opens
each dotted name once, and only such as are written in the bodies. A name to which it comes
once more is among the result as it is written, so the column that it starts with is if any
reference leads back to it, and so is some name of every other cycle of references. -/
theorem resolve_ends (limits : Limits) (levels depth : Nat) (texts : List (String × String))
    (columnLists : NameMap (List String)) (name column : String) :
    let bodies := Bodies.ofTexts limits levels depth texts columnLists
    let follows := Goes (tracing bodies name column)
    let literal := qualify name column
    (∃ level limit, bodies.resolve name column = .error (.recursionLimit level limit)) ∨
    ∃ reached, bodies.resolve name column = .ok reached ∧ reached ≠ [] ∧ reached.Nodup ∧
      (∃ found calls opened, bodies.lookUp name column = .ok found ∧
        Visits (tracing bodies name column) [literal] [] [] calls opened reached ∧ opened.Nodup ∧
        (∀ dotted ∈ opened, dotted ∈ literal :: (found ++ bodies.graph.inner ())) ∧
        ∀ dotted, 1 < calls.count dotted → dotted ∈ reached) ∧
      (∀ dotted, ReflTransGen follows literal dotted → follows dotted literal → literal ∈ reached) ∧
      ∀ dotted, ReflTransGen follows literal dotted → TransGen follows dotted dotted →
        ∃ other ∈ reached, ReflTransGen follows dotted other ∧ ReflTransGen follows other dotted := by
  intro bodies follows literal
  cases ends : bodies.resolve name column with
  | error error =>
    obtain ⟨level, limit, rfl⟩ := limit_of_resolve ends
    exact .inl ⟨level, limit, rfl⟩
  | ok reached =>
    obtain ⟨found, calls, opened, known, visits⟩ := visits_of_resolve ends
    have filled : bodies.Filled := Bodies.filled_ofTexts limits levels depth texts columnLists
    refine .inr ⟨reached, rfl, Bodies.resolve_ne_nil filled ends, visits.nodup List.nodup_nil,
      ⟨found, calls, opened, known, visits, visits.nodup_opened, ?_, fun dotted => visits.reached_of_again⟩,
      fun dotted => visits.reached_root, fun dotted => visits.exists_reached_of_cycle⟩
    intro dotted member
    obtain ⟨path, opens⟩ := visits.mem_opened_iff.mp member
    exact mem_of_opens known path opens

end QueryFacts.Proofs.BodyTraversal

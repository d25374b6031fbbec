import QueryFacts.Alias
import QueryFacts.Proofs.CoherentFacts
import QueryFacts.Proofs.Traversal

/-! Aliases of columns replaced by the columns that they finally stand for. The substitution
misses none of these columns, on whatever map; an alias is left in it exactly if it comes up
twice on the way. Where no cycle of aliases can be reached, it gives these columns in
depth-first order, but also each alias that is named in two places: it is replaced in the
first of them only. -/

namespace QueryFacts.Proofs.AliasSubstitution
open Relation Unfolding Traversal

variable {aliases : NameMap AliasTarget} {name : String}

def usedBy (aliases : NameMap AliasTarget) (name : String) : List String :=
  ((aliases.find? name).map AliasTarget.names).getD []

/-- An alias stands for a column, perhaps among others. -/
def Uses (aliases : NameMap AliasTarget) (name other : String) : Prop := other ∈ usedBy aliases name

/-- No cycle of aliases can be reached from a name. -/
def CycleFree (aliases : NameMap AliasTarget) (name : String) : Prop :=
  ∀ other, ReflTransGen (Uses aliases) name other → ¬TransGen (Uses aliases) other other

/-- Names with each alias among them replaced by what it stands for, in the same way, until
no alias is left: the columns from left to right, with repetitions. -/
inductive Expands (aliases : NameMap AliasTarget) : List String → List String → Prop where
  | done : Expands aliases [] []
  | column {name : String} {rest columns : List String} (plain : aliases.find? name = none)
      (others : Expands aliases rest columns) : Expands aliases (name :: rest) (name :: columns)
  | label {name : String} {target : AliasTarget} {rest columns more : List String}
      (known : aliases.find? name = some target) (inner : Expands aliases target.names columns)
      (others : Expands aliases rest more) : Expands aliases (name :: rest) (columns ++ more)

/-- A rank that falls from an alias to what it stands for excludes cycles. -/
theorem cycleFree_of_rank (rank : String → Nat)
    (falls : ∀ label other, Uses aliases label other → rank other < rank label)
    (name : String) : CycleFree aliases name := by
  have below {label other : String} (path : TransGen (Uses aliases) label other) : rank other < rank label := by
    induction path with
    | single use => exact falls _ _ use
    | tail path use ih => exact Nat.lt_trans (falls _ _ use) ih
  exact fun other _ cycle => Nat.lt_irrefl _ (below cycle)

def links (aliases : NameMap AliasTarget) : Links := fun name => (aliases.find? name).map AliasTarget.names

theorem uses_of_leads {other : String} (lead : Leads (links aliases) name other) : Uses aliases name other := by
  obtain ⟨found, opening, member, -⟩ := lead
  have same : usedBy aliases name = found := congrArg (·.getD []) opening
  rwa [Uses, same]

theorem acyclic (free : CycleFree aliases name) : Acyclic (links aliases) name := fun other path cycle =>
  free other (path.lift id fun _ _ => uses_of_leads) (cycle.lift id fun _ _ => uses_of_leads)

theorem leads_iff {other : String} :
    ReflTransGen (Leads (links aliases)) name other ↔ ReflTransGen (Uses aliases) name other := leads_iff_goes

theorem leaves_eq (aliases : NameMap AliasTarget) (name : String) :
    (Alias.graph aliases).leaves [name] [] = .ok (Alias.resolve aliases name) := by
  unfold Alias.resolve
  split
  next found => exact found
  next never _ => exact nomatch never

theorem linksFrom_eq {target : AliasTarget} (known : aliases.find? name = some target) :
    linksFrom (Alias.graph aliases) name target.names = links aliases := by
  funext other
  unfold linksFrom links
  by_cases same : other = name
  · simp [same, known]
  · cases found : aliases.find? other with
    | none => simp [same, Alias.graph, found]
    | some target => simp [same, Alias.graph, found, Except.toOption]

theorem resolve_of_plain (plain : aliases.find? name = none) : Alias.resolve aliases name = [name] := by
  have closed : (Alias.graph aliases).successors name = none := by simp [Alias.graph, plain]
  exact Except.ok.inj ((leaves_eq aliases name).symm.trans (leaves_of_closed closed _))

theorem walks_of_resolve {target : AliasTarget} (known : aliases.find? name = some target) :
    ∃ opened, Walks (links aliases) target.names [name] [] opened (Alias.resolve aliases name) := by
  have ends := leaves_eq aliases name
  unfold NameGraph.leaves NameGraph.walk at ends
  split at ends
  next opening => simp [Alias.graph, known] at opening
  next result opening =>
    obtain rfl : .ok target.names = result := by simpa [Alias.graph, known] using opening
    rw [dif_neg List.not_mem_nil] at ends
    obtain ⟨opened, walks, -⟩ := walks_of_walk target.names List.mem_cons_self ends
    rw [linksFrom_eq known, List.append_nil] at walks
    exact ⟨opened, walks⟩

theorem reached_of_plain {pending opened out after reached : List String}
    (walks : Walks (links aliases) pending opened out after reached)
    (plain : ∀ other ∈ pending, aliases.find? other = none) : reached = addAllNew out pending := by
  induction walks with
  | done => rfl
  | final ends others ih | again known others ih =>
    exact ih fun other member => plain other (List.mem_cons_of_mem _ member)
  | opens fresh opening =>
    simp [links, plain _ List.mem_cons_self] at opening

/-- An alias of columns stands for them. -/
theorem resolve_of_columns {target : AliasTarget} (known : aliases.find? name = some target)
    (plain : ∀ other ∈ target.names, aliases.find? other = none) :
    Alias.resolve aliases name = distinct target.names := by
  obtain ⟨opened, walks⟩ := walks_of_resolve known
  exact reached_of_plain walks plain

theorem visits_of_resolve (aliases : NameMap AliasTarget) (name : String) :
    ∃ calls opened, Visits (links aliases) [name] [] [] calls opened (Alias.resolve aliases name) := by
  cases known : aliases.find? name with
  | none =>
    rw [resolve_of_plain known]
    exact ⟨[name], [], .final (by simp [links, known]) .done⟩
  | some target =>
    obtain ⟨opened, walks⟩ := walks_of_resolve known
    obtain ⟨calls, visits⟩ := exists_visits (.opens List.not_mem_nil (by simp [links, known]) walks .done)
    exact ⟨calls, opened, visits⟩

/-- On every map whose aliases all stand for something, the substitution ends and gives at
least one name, and none twice. It gives nothing but names that can be reached, and of these
every one that is no alias. An alias is among them exactly if the walk, which opens each
alias once, comes to it a second time. -/
theorem resolve_total (aliases : NameMap AliasTarget) (name : String)
    (named : ∀ label target, aliases.find? label = some target → target.names ≠ []) :
    Alias.resolve aliases name ≠ [] ∧ (Alias.resolve aliases name).Nodup ∧
      (∀ other ∈ Alias.resolve aliases name, ReflTransGen (Uses aliases) name other) ∧
      (∀ other, ReflTransGen (Uses aliases) name other → aliases.find? other = none →
        other ∈ Alias.resolve aliases name) ∧
      ∃ calls opened, Visits (links aliases) [name] [] [] calls opened (Alias.resolve aliases name) ∧
        opened.Nodup ∧ (∀ label ∈ opened, aliases.contains label) ∧
          calls.Perm (name :: opened.flatMap (usedBy aliases)) ∧
        ∀ label, aliases.contains label → (label ∈ Alias.resolve aliases name ↔ 1 < calls.count label) := by
  obtain ⟨calls, opened, visits⟩ := visits_of_resolve aliases name
  have linked {label : String} : (links aliases label).isSome = aliases.contains label := by
    simp [links, NameMap.contains]
  refine ⟨Alias.resolve_ne_nil named name, visits.nodup List.nodup_nil, fun other => visits.reachable, ?_,
    calls, opened, visits, visits.nodup_opened, ?_, visits.perm_calls, ?_⟩
  · exact fun other path plain => visits.complete path (by simp [links, plain])
  · exact fun label member => linked ▸ (visits.mem_opened_iff.mp member).2
  · exact fun label known => visits.mem_reached_iff (linked ▸ known)

/-- Two aliases that stand for each other: the walk ends where it comes to the first again. -/
theorem resolve_around :
    let aliases := NameMap.ofPairs [("a", .columns ["b", "c"]), ("b", .column "a")]
    (∀ label target, aliases.find? label = some target → target.names ≠ []) ∧
      Alias.resolve aliases "a" = ["a", "c"] ∧ ∃ calls opened,
        Visits (links aliases) ["a"] [] [] calls opened ["a", "c"] ∧ 1 < calls.count "a" := by
  intro aliases
  have named : ∀ label target, aliases.find? label = some target → target.names ≠ [] := by
    intro label target known
    have entry := NameMap.mem_entries_of_find? known
    have entries : aliases.entries = [("a", .columns ["b", "c"]), ("b", .column "a")] := by decide
    rw [entries] at entry
    simp only [List.mem_cons, Prod.mk.injEq, List.not_mem_nil, or_false] at entry
    rcases entry with ⟨-, rfl⟩ | ⟨-, rfl⟩ <;> simp [AliasTarget.names]
  have result : Alias.resolve aliases "a" = ["a", "c"] := by cbv
  obtain ⟨-, -, -, -, calls, opened, visits, -, -, -, again⟩ := resolve_total aliases "a" named
  refine ⟨named, result, calls, opened, result ▸ visits, (again "a" (by decide)).mp ?_⟩
  rw [result]
  exact List.mem_cons_self

theorem expands_of_unfolds {owner : String} {pending met columns : List String}
    (unfolds : Unfolds (links aliases) owner pending met columns) (own : owner ∉ pending)
    (apart : ∀ other ∈ met, ¬Uses aliases other other) : Expands aliases pending columns := by
  induction unfolds with
  | done => exact .done
  | itself others ih => exact absurd List.mem_cons_self own
  | final ends others ih =>
    exact .column (by simpa [links] using ends) (ih (List.not_mem_of_not_mem_cons own) apart)
  | @opens owner name found rest met later columns more different opening inner others ihInner ihOthers =>
    obtain ⟨target, known, rfl⟩ := Option.map_eq_some_iff.mp opening
    refine .label known (ihInner ?_ fun other member => ?_) (ihOthers ?_ fun other member => ?_)
    · intro inside
      exact apart name List.mem_cons_self (by simpa [Uses, usedBy, known] using inside)
    · exact apart other (List.mem_cons_of_mem _ (List.mem_append_left _ member))
    · exact List.not_mem_of_not_mem_cons own
    · exact apart other (List.mem_cons_of_mem _ (List.mem_append_right _ member))

/-- All that can be reached from a name: the columns in depth-first order with repetitions,
and each alias once. -/
structure Reach (aliases : NameMap AliasTarget) (name : String) (columns labels : List String) : Prop where
  expands : Expands aliases [name] columns
  columns : ∀ other, other ∈ columns ↔ ReflTransGen (Uses aliases) name other ∧ aliases.find? other = none
  once : labels.Nodup
  labels : ∀ other, other ∈ labels ↔ ReflTransGen (Uses aliases) name other ∧ aliases.contains other

private theorem reach_of_plain (plain : aliases.find? name = none) : Reach aliases name [name] [] := by
  have alone {other : String} (path : ReflTransGen (Uses aliases) name other) : other = name := by
    rcases path.cases_head with same | ⟨next, use, -⟩
    · exact same.symm
    · simp [Uses, usedBy, plain] at use
  refine ⟨.column plain .done, ?_, List.nodup_nil, ?_⟩
  · intro other
    rw [List.mem_singleton]
    constructor
    · rintro rfl
      exact ⟨.refl, plain⟩
    · exact fun ⟨path, _⟩ => alone path
  · intro other
    refine ⟨fun member => (nomatch member), fun ⟨path, known⟩ => ?_⟩
    rw [alone path, NameMap.contains, plain] at known
    cases known

section Label
variable {target : AliasTarget} {opened reached met columns : List String}

private theorem reach_of_unfolds (free : CycleFree aliases name) (known : aliases.find? name = some target)
    (walks : Walks (links aliases) target.names [name] [] opened reached)
    (unfolds : Unfolds (links aliases) name target.names met columns) : Reach aliases name columns opened := by
  have opening : links aliases name = some target.names := by simp [links, known]
  have own : name ∉ target.names :=
    fun inside => free name .refl (.single (by simpa [Uses, usedBy, known] using inside))
  have linked {other : String} : (links aliases other).isSome = aliases.contains other := by
    simp [links, NameMap.contains]
  have reachable {other : String} (member : other ∈ met ++ columns) : ReflTransGen (Uses aliases) name other := by
    obtain ⟨first, inside, path⟩ := unfolds.leads member
    exact leads_iff.mp (leads_of_target opening inside path)
  have apart {other : String} (path : ReflTransGen (Uses aliases) name other) : ¬Uses aliases other other :=
    fun use => free other path (.single use)
  refine ⟨?_, ?_, ?_, ?_⟩
  · have expands := expands_of_unfolds unfolds own fun other member => apart (reachable (List.mem_append_left _ member))
    rw [← List.append_nil columns]
    exact .label known expands .done
  · intro other
    constructor
    · intro member
      have path := reachable (List.mem_append_right _ member)
      refine ⟨path, ?_⟩
      have final := unfolds.isFinal_of_mem (fun inside => absurd inside own) member
      cases used : aliases.find? other with
      | none => rfl
      | some names =>
        refine absurd ?_ (apart path)
        simpa [isFinal, links, used, Uses, usedBy] using final
    · rintro ⟨path, plain⟩
      rcases (leads_iff.mpr path).cases_head with rfl | ⟨first, ⟨found, link, inside, different⟩, rest⟩
      · cases plain.symm.trans known
      · obtain rfl := Option.some.inj (opening.symm.trans link)
        exact unfolds.mem_of_leads inside different rest (by simp [links, plain])
  · obtain ⟨added, opens⟩ := walks.exists_opens
    exact opens.nodup (List.nodup_singleton name)
  · intro other
    rw [← linked]
    constructor
    · intro member
      refine ⟨leads_iff.mp (opened_reachable opening walks member), ?_⟩
      obtain ⟨added, opens⟩ := walks.exists_opens
      rcases List.mem_append.mp (opens.whole ▸ member) with new | start
      · exact opens.linked other new
      · simp [List.mem_singleton.mp start, opening]
    · rintro ⟨path, known⟩
      exact reachable_opened opening walks (leads_iff.mpr path) known

/-- Nothing that can be reached from a name stands for the name. -/
private theorem count_name (free : CycleFree aliases name) (reach : Reach aliases name columns opened) :
    (opened.flatMap (usedBy aliases)).count name = 0 := by
  rw [List.count_eq_zero, List.mem_flatMap]
  rintro ⟨other, member, use⟩
  have path := ((reach.labels other).mp member).1
  rcases path.cases_head with rfl | ⟨next, first, rest⟩
  · exact free name .refl (.single use)
  · exact free name .refl ((TransGen.head' first rest).tail use)

private theorem count_cons_name (free : CycleFree aliases name)
    (reach : Reach aliases name columns opened) (other : String) :
    1 < (name :: opened.flatMap (usedBy aliases)).count other ↔ 1 < (opened.flatMap (usedBy aliases)).count other := by
  by_cases same : name = other
  · rw [← same, List.count_cons_self, count_name free reach]
    omega
  · rw [List.count_cons_of_ne same]

end Label

/-- Where no cycle of aliases can be reached, the substitution gives the columns that can be
reached, each once and in depth-first order of its first place, and besides them each alias
that is named in two places. So it is exact exactly when there is no such alias. -/
theorem resolve_exact_iff (aliases : NameMap AliasTarget) (name : String) (free : CycleFree aliases name) :
    ∃ columns labels, Reach aliases name columns labels ∧
      (Alias.resolve aliases name).filter (!aliases.contains ·) = distinct columns ∧
      (∀ other, aliases.contains other →
        (other ∈ Alias.resolve aliases name ↔ 1 < (labels.flatMap (usedBy aliases)).count other)) ∧
      (Alias.resolve aliases name = distinct columns ↔
        ∀ other ∈ labels, (labels.flatMap (usedBy aliases)).count other ≤ 1) := by
  cases known : aliases.find? name with
  | none =>
    rw [resolve_of_plain known]
    have plain : aliases.contains name = false := by simp [NameMap.contains, known]
    refine ⟨[name], [], reach_of_plain known, by simp [plain, distinct, addAllNew, addNew], ?_,
      by simp [distinct, addAllNew, addNew]⟩
    intro other label
    have different : other ≠ name := by
      rintro rfl
      cases plain.symm.trans label
    simp [different]
  | some target =>
    obtain ⟨opened, walks⟩ := walks_of_resolve known
    have opening : links aliases name = some target.names := by simp [links, known]
    obtain ⟨met, columns, unfolds, ended, members, exactly⟩ := walk_exact opening walks (acyclic free)
    have reach := reach_of_unfolds free known walks unfolds
    refine ⟨columns, opened, reach, ?_, ?_, ?_⟩
    · rw [← ended]
      apply List.filter_congr
      intro other member
      rcases (members other).mp member with column | ⟨label, -⟩
      · have plain := ((reach.columns other).mp column).2
        simp [NameMap.contains, plain, column]
      · have known := ((reach.labels other).mp label).2
        have apart : other ∉ columns := fun column => by
          simp [NameMap.contains, ((reach.columns other).mp column).2] at known
        simp [known, apart]
    · intro other label
      rw [mem_reached_iff opening walks (by simpa [links, NameMap.contains] using label)]
      exact count_cons_name free reach other
    · rw [exactly]
      refine forall₂_congr fun other member => ?_
      have label : other ∉ columns := by
        intro column
        have known := ((reach.labels other).mp member).2
        simp [NameMap.contains, ((reach.columns other).mp column).2] at known
      rw [← Nat.not_lt, ← Nat.not_lt]
      exact (forall_prop_of_true label).trans (not_congr (count_cons_name free reach other))

/-- An alias that is used in two others is replaced in the first of them and kept in the second. -/
theorem resolve_used_twice :
    let aliases := NameMap.ofPairs [("x", .column "a"), ("y", .column "x"), ("z", .columns ["x", "y"])]
    CycleFree aliases "z" ∧ Alias.resolve aliases "z" = ["a", "x"] ∧
      ∃ columns labels, Reach aliases "z" columns labels ∧
      distinct columns = ["a"] ∧ 1 < (labels.flatMap (usedBy aliases)).count "x" := by
  intro aliases
  have free : CycleFree aliases "z" := by
    apply cycleFree_of_rank fun name => if name = "z" then 3 else if name = "y" then 2 else if name = "x" then 1 else 0
    intro label other use
    cases known : aliases.find? label with
    | none => simp [Uses, usedBy, known] at use
    | some target =>
      have entry := NameMap.mem_entries_of_find? known
      have inside : other ∈ target.names := by simpa [Uses, usedBy, known] using use
      have entries : aliases.entries = [("x", .column "a"), ("y", .column "x"), ("z", .columns ["x", "y"])] := by decide
      rw [entries] at entry
      simp only [List.mem_cons, Prod.mk.injEq, List.not_mem_nil, or_false] at entry
      rcases entry with ⟨rfl, rfl⟩ | ⟨rfl, rfl⟩ | ⟨rfl, rfl⟩
      all_goals simp only [AliasTarget.names, List.mem_cons, List.not_mem_nil, or_false] at inside
      · simp [inside]
      · simp [inside]
      · rcases inside with rfl | rfl <;> simp
  have result : Alias.resolve aliases "z" = ["a", "x"] := by cbv
  obtain ⟨columns, labels, reach, ended, again, -⟩ := resolve_exact_iff aliases "z" free
  refine ⟨free, result, columns, labels, reach, ?_, ?_⟩
  · rw [← ended, result]
    decide
  · exact (again "x" (by decide)).mp (by simp [result])

end QueryFacts.Proofs.AliasSubstitution

import Mathlib
import QueryFacts.Body
import QueryFacts.Proofs.Unfolding

/-! Columns traced through the bodies that they are taken from. Where no cycle of references
can be reached, tracing gives the columns at which it ends in depth-first order, but also
each reference that comes up in two places: it is traced from the first of them only, and
stays as it is written in the second. -/

namespace QueryFacts.Proofs.BodyResolution
open Relation Text Unfolding

variable {bodies : Bodies} {name column : String}

/-- What is found for a column of a body is a reference to a column of a body, and not to itself. -/
def RefersTo (bodies : Bodies) (source : String × String) (dotted : String) (target : String × String) : Prop :=
  dotted ≠ qualify source.1 source.2 ∧ splitQualified? dotted = some target ∧ bodies.contains target.1

def Refers (bodies : Bodies) (source target : String × String) : Prop :=
  ∃ found, bodies.lookUp source.1 source.2 = .ok found ∧ ∃ dotted ∈ found, RefersTo bodies source dotted target

/-- No cycle of references can be reached from a column of a body. -/
def CycleFree (bodies : Bodies) (start : String × String) : Prop :=
  ∀ pair, ReflTransGen (Refers bodies) start pair → ¬TransGen (Refers bodies) pair pair

/-- What is found for a column of a body with each reference in it traced in the same way:
the columns at which this ends from left to right, with repetitions. -/
inductive Traces (bodies : Bodies) : String × String → List String → List String → Prop where
  | done {source : String × String} : Traces bodies source [] []
  | kept {source : String × String} {dotted : String} {rest columns : List String}
      (ends : ∀ target, ¬RefersTo bodies source dotted target) (others : Traces bodies source rest columns) :
      Traces bodies source (dotted :: rest) (dotted :: columns)
  | through {source target : String × String} {dotted : String} {found rest columns more : List String}
      (refers : RefersTo bodies source dotted target) (known : bodies.lookUp target.1 target.2 = .ok found)
      (inner : Traces bodies target found columns) (others : Traces bodies source rest more) :
      Traces bodies source (dotted :: rest) (columns ++ more)

theorem RefersTo.unique {source target other : String × String} {dotted : String}
    (refers : RefersTo bodies source dotted target) (also : RefersTo bodies source dotted other) : target = other :=
  Option.some.inj (refers.2.1.symm.trans also.2.1)

theorem Traces.unique {source : String × String} {found columns others : List String}
    (traces : Traces bodies source found columns) (also : Traces bodies source found others) : columns = others := by
  induction traces generalizing others with
  | done =>
    cases also
    rfl
  | kept ends rest ih =>
    cases also with
    | kept _ again => rw [ih again]
    | through refers => exact absurd refers (ends _)
  | through refers known inner rest ihInner ihRest =>
    cases also with
    | kept ends => exact absurd refers (ends _)
    | through again knownAgain innerAgain restAgain =>
      obtain rfl := refers.unique again
      obtain rfl := Except.ok.inj (known.symm.trans knownAgain)
      rw [ihInner innerAgain, ihRest restAgain]

/-- What is found for a dotted name, if it is a column of a body. -/
def links (bodies : Bodies) : Links := fun dotted =>
  (splitQualified? dotted).bind fun (name, column) =>
    if bodies.contains name then some ((bodies.lookUp name column).toOption.getD []) else none

theorem links_eq_some_iff {dotted : String} {found : List String} :
    links bodies dotted = some found ↔ ∃ source, splitQualified? dotted = some source ∧ bodies.contains source.1 ∧
      (bodies.lookUp source.1 source.2).toOption.getD [] = found := by
  simp only [links, Option.bind_eq_some_iff, Option.ite_none_right_eq_some, Option.some.injEq]

/-- A body that is not there leaves a column as it is written. -/
theorem lookUp_of_unknown (unknown : bodies.contains name = false) :
    bodies.lookUp name column = .ok [qualify name column] := by
  have missing : bodies.facts.find? name = none := by simpa [Bodies.contains, NameMap.contains] using unknown
  rw [Bodies.lookUp, Bodies.facts?, missing]
  rfl

/-- A rank that falls along the references of some columns excludes cycles from them. -/
theorem cycleFree_of_rank (rank : String × String → Nat) (among : List (String × String))
    (falls : ∀ source ∈ among, ∀ target, Refers bodies source target → target ∈ among ∧ rank target < rank source)
    {start : String × String} (begins : start ∈ among) : CycleFree bodies start := by
  have stays {source target : String × String} (inside : source ∈ among)
      (path : ReflTransGen (Refers bodies) source target) :
      target ∈ among := by
    induction path with
    | refl => exact inside
    | tail path refers ih => exact (falls _ ih _ refers).1
  have below {source target : String × String} (inside : source ∈ among)
      (path : TransGen (Refers bodies) source target) :
      rank target < rank source := by
    induction path with
    | single refers => exact (falls _ inside _ refers).2
    | tail path refers ih => exact Nat.lt_trans (falls _ (stays inside path.to_reflTransGen) _ refers).2 ih
  exact fun pair path cycle => Nat.lt_irrefl _ (below (stays begins path) cycle)

theorem refers_of_leads {dotted other : String} (lead : Leads (links bodies) dotted other)
    (opens : (links bodies other).isSome) : ∃ source target, splitQualified? dotted = some source ∧
      splitQualified? other = some target ∧ Refers bodies source target := by
  obtain ⟨found, opening, member, different⟩ := lead
  obtain ⟨source, split, contained, same⟩ := links_eq_some_iff.mp opening
  obtain ⟨names, further⟩ := Option.isSome_iff_exists.mp opens
  obtain ⟨target, splitOther, containedOther, -⟩ := links_eq_some_iff.mp further
  refine ⟨source, target, split, splitOther, ?_⟩
  cases known : bodies.lookUp source.1 source.2 with
  | error error => simp [known, Except.toOption, ← same] at member
  | ok names =>
    have whole : qualify source.1 source.2 = dotted := qualify_of_split split
    refine ⟨names, known, other, ?_, whole ▸ different, splitOther, containedOther⟩
    simpa [known, Except.toOption, ← same] using member

theorem refers_of_path {dotted other : String} (path : TransGen (Leads (links bodies)) dotted other)
    (opens : (links bodies other).isSome) : ∃ source target, splitQualified? dotted = some source ∧
      splitQualified? other = some target ∧ TransGen (Refers bodies) source target := by
  induction path with
  | single lead =>
    obtain ⟨source, target, split, splitOther, refers⟩ := refers_of_leads lead opens
    exact ⟨source, target, split, splitOther, .single refers⟩
  | @tail middle last path lead ih =>
    obtain ⟨found, opening, -⟩ := id lead
    obtain ⟨source, between, split, splitMiddle, earlier⟩ := ih (by simp [opening])
    obtain ⟨again, target, splitAgain, splitLast, refers⟩ := refers_of_leads lead opens
    obtain rfl := Option.some.inj (splitMiddle.symm.trans splitAgain)
    exact ⟨source, target, split, splitLast, earlier.tail refers⟩

theorem refers_of_reached {start : String} {source : String × String} (split : splitQualified? start = some source)
    {dotted : String} (path : ReflTransGen (Leads (links bodies)) start dotted) (opens : (links bodies dotted).isSome) :
    ∃ target, splitQualified? dotted = some target ∧ ReflTransGen (Refers bodies) source target := by
  rcases reflTransGen_iff_eq_or_transGen.mp path with rfl | path
  · exact ⟨source, split, .refl⟩
  · obtain ⟨again, target, splitAgain, splitDotted, refers⟩ := refers_of_path path opens
    obtain rfl := Option.some.inj (split.symm.trans splitAgain)
    exact ⟨target, splitDotted, refers.to_reflTransGen⟩

theorem acyclic {start : String} {source : String × String} (split : splitQualified? start = some source)
    (free : CycleFree bodies source) : Acyclic (links bodies) start := by
  intro dotted path cycle
  obtain ⟨next, ⟨found, opening, -⟩, -⟩ := TransGen.head'_iff.mp cycle
  have opens : (links bodies dotted).isSome := by simp [opening]
  obtain ⟨target, splitDotted, reached⟩ := refers_of_reached split path opens
  obtain ⟨first, last, splitFirst, splitLast, round⟩ := refers_of_path cycle opens
  obtain rfl := Option.some.inj (splitDotted.symm.trans splitFirst)
  obtain rfl := Option.some.inj (splitDotted.symm.trans splitLast)
  exact free target reached round

/-- A path of references, followed from a dotted name. -/
theorem leads_of_refers {start : String} {source target : String × String} (split : splitQualified? start = some source)
    (contained : bodies.contains source.1) (path : ReflTransGen (Refers bodies) source target) :
    ∃ dotted, splitQualified? dotted = some target ∧ (links bodies dotted).isSome ∧
      ReflTransGen (Leads (links bodies)) start dotted := by
  have opens {dotted : String} {pair : String × String} (split : splitQualified? dotted = some pair)
      (contained : bodies.contains pair.1) : (links bodies dotted).isSome := by
    rw [Option.isSome_iff_exists]
    exact ⟨_, links_eq_some_iff.mpr ⟨pair, split, contained, rfl⟩⟩
  induction path with
  | refl => exact ⟨start, split, opens split contained, .refl⟩
  | @tail middle last path refers ih =>
    obtain ⟨between, splitBetween, open_, earlier⟩ := ih
    obtain ⟨names, opening⟩ := Option.isSome_iff_exists.mp open_
    obtain ⟨pair, splitAgain, known, same⟩ := links_eq_some_iff.mp opening
    obtain rfl := Option.some.inj (splitBetween.symm.trans splitAgain)
    obtain ⟨found, looked, dotted, member, different, splitDotted, containedLast⟩ := refers
    have whole : qualify middle.1 middle.2 = between := qualify_of_split splitBetween
    refine ⟨dotted, splitDotted, opens splitDotted containedLast, earlier.tail ⟨names, opening, ?_, whole ▸ different⟩⟩
    simpa [← same, looked, Except.toOption] using member

theorem traces_of_unfolds {owner : String} {source : String × String} {pending met columns : List String}
    (unfolds : Unfolds (links bodies) owner pending met columns) (whole : qualify source.1 source.2 = owner)
    (succeeds : ∀ dotted ∈ met, ∃ names, bodies.graph.successors dotted = some (.ok names)) :
    Traces bodies source pending columns := by
  induction unfolds generalizing source with
  | done => exact .done
  | itself others ih => exact .kept (fun target refers => refers.1 whole.symm) (ih whole succeeds)
  | final ends others ih =>
    refine .kept (fun target refers => ?_) (ih whole succeeds)
    have opening := links_eq_some_iff.mpr ⟨target, refers.2.1, refers.2.2, rfl⟩
    cases ends.symm.trans opening
  | @opens owner name found rest met later columns more different opening inner others ihInner ihOthers =>
    obtain ⟨target, split, contained, same⟩ := links_eq_some_iff.mp opening
    obtain ⟨names, ok⟩ := succeeds name List.mem_cons_self
    have known : bodies.lookUp target.1 target.2 = .ok names := by simpa [Bodies.graph, split, contained] using ok
    obtain rfl : names = found := by simpa [known, Except.toOption] using same
    refine .through ⟨whole ▸ different, split, contained⟩ known
      (ihInner (qualify_of_split split) ?_) (ihOthers whole ?_)
    · exact fun dotted member => succeeds dotted (List.mem_cons_of_mem _ (List.mem_append_left _ member))
    · exact fun dotted member => succeeds dotted (List.mem_cons_of_mem _ (List.mem_append_right _ member))

theorem walks_of_resolve (bare : '.' ∉ column.toList) (contained : bodies.contains name) {found reached : List String}
    (known : bodies.lookUp name column = .ok found) (ends : bodies.resolve name column = .ok reached) :
    ∃ opened, Walks (links bodies) found [qualify name column] [] opened reached ∧
      ∀ dotted ∈ opened, ∃ names, bodies.graph.successors dotted = some (.ok names) := by
  have split := splitQualified?_qualify bare name
  have start : bodies.graph.successors (qualify name column) = some (.ok found) := by
    simp [Bodies.graph, split, contained, known]
  have same : linksFrom bodies.graph (qualify name column) found = links bodies := by
    funext dotted
    unfold linksFrom
    split
    next root =>
      rw [root]
      exact (links_eq_some_iff.mpr ⟨(name, column), split, contained, by rw [known]; rfl⟩).symm
    next => 
      simp only [Bodies.graph, links, Option.map_bind, Function.comp_def]
      congr
      funext pair
      split <;> rfl
  rw [Bodies.resolve, known] at ends
  obtain ⟨opened, walks, succeeds⟩ := walks_of_walk found List.mem_cons_self ends
  refine ⟨opened, same ▸ walks, fun dotted member => ?_⟩
  rcases succeeds dotted member with root | ok
  · exact ⟨found, List.mem_singleton.mp root ▸ start⟩
  · exact ok

/-- All that can be reached from a column of a body: the columns at which tracing ends in
depth-first order with repetitions, and each reference on the way once. -/
structure Reach (bodies : Bodies) (start : String × String) (columns references : List String) : Prop where
  traces : ∃ found, bodies.lookUp start.1 start.2 = .ok found ∧ Traces bodies start found columns
  once : references.Nodup
  references : ∀ dotted, dotted ∈ references ↔
    ∃ pair, ReflTransGen (Refers bodies) start pair ∧ dotted = qualify pair.1 pair.2

private theorem reach_of_unknown (unknown : bodies.contains name = false) :
    Reach bodies (name, column) [qualify name column] [qualify name column] := by
  have looked : bodies.lookUp name column = .ok [qualify name column] := lookUp_of_unknown unknown
  refine ⟨⟨_, looked, .kept (fun target refers => refers.1 rfl) .done⟩, List.nodup_singleton _, fun dotted => ?_⟩
  rw [List.mem_singleton]
  constructor
  · exact fun same => ⟨(name, column), .refl, same⟩
  · rintro ⟨pair, path, same⟩
    rcases path.cases_head with rfl | ⟨next, ⟨found, known, other, member, different, -⟩, -⟩
    · exact same
    · obtain rfl := Except.ok.inj (looked.symm.trans known)
      exact absurd (List.mem_singleton.mp member) different

private theorem resolve_of_unknown (unknown : bodies.contains name = false) (bare : '.' ∉ column.toList) :
    bodies.resolve name column = .ok [qualify name column] := by
  have closed : bodies.graph.successors (qualify name column) = none := by
    simp [Bodies.graph, splitQualified?_qualify bare, unknown]
  rw [Bodies.resolve, lookUp_of_unknown unknown]
  exact leaves_of_closed closed _

private theorem reach_of_walks (bare : '.' ∉ column.toList) (contained : bodies.contains name)
    {found opened reached met columns : List String} (known : bodies.lookUp name column = .ok found)
    (walks : Walks (links bodies) found [qualify name column] [] opened reached)
    (succeeds : ∀ dotted ∈ opened, ∃ names, bodies.graph.successors dotted = some (.ok names))
    (unfolds : Unfolds (links bodies) (qualify name column) found met columns) :
    Reach bodies (name, column) columns opened := by
  have split := splitQualified?_qualify bare name
  have opening : links bodies (qualify name column) = some found :=
    links_eq_some_iff.mpr ⟨(name, column), split, contained, by rw [known]; rfl⟩
  have opens {dotted : String} (member : dotted ∈ met) : dotted ∈ opened := by
    obtain ⟨first, inside, path⟩ := unfolds.leads (List.mem_append_left _ member)
    obtain ⟨names, -, -, link, -⟩ := unfolds.inner member
    exact reachable_opened opening walks (leads_of_target opening inside path) (by simp [link])
  refine ⟨⟨found, known, traces_of_unfolds unfolds rfl fun dotted member => succeeds dotted (opens member)⟩, ?_, ?_⟩
  · obtain ⟨added, opened⟩ := walks.exists_opens
    exact opened.nodup (List.nodup_singleton _)
  · intro dotted
    constructor
    · intro member
      obtain ⟨names, ok⟩ := succeeds dotted member
      have link : (links bodies dotted).isSome := by
        obtain ⟨pair, splitDotted, contained⟩ := Option.bind_eq_some_iff.mp ok
        have inside := (Option.ite_none_right_eq_some.mp contained).1
        exact Option.isSome_iff_exists.mpr ⟨_, links_eq_some_iff.mpr ⟨pair, splitDotted, inside, rfl⟩⟩
      obtain ⟨pair, splitDotted, path⟩ := refers_of_reached split (opened_reachable opening walks member) link
      exact ⟨pair, path, (qualify_of_split splitDotted).symm⟩
    · rintro ⟨pair, path, rfl⟩
      obtain ⟨dotted, splitDotted, link, leads⟩ := leads_of_refers split contained path
      rw [qualify_of_split splitDotted]
      exact reachable_opened opening walks leads link

/-- Where no cycle of references can be reached, tracing gives the columns at which it ends,
each once and in depth-first order of its first place, and besides them each reference that
comes up in two places. So it is exact exactly when each of these is such a column itself. -/
theorem trace_exact_iff (bare : '.' ∉ column.toList) (free : CycleFree bodies (name, column)) {reached : List String}
    (ends : bodies.resolve name column = .ok reached) :
    ∃ columns references, Reach bodies (name, column) columns references ∧
      reached.filter (· ∈ columns) = distinct columns ∧
      (∀ dotted, dotted ∈ reached ↔ dotted ∈ columns ∨ dotted ∈ references ∧
        1 < (qualify name column :: references.flatMap (targets (links bodies))).count dotted) ∧
      (reached = distinct columns ↔ ∀ dotted ∈ references, dotted ∉ columns →
        (qualify name column :: references.flatMap (targets (links bodies))).count dotted ≤ 1) := by
  cases contained : bodies.contains name with
  | false =>
    obtain rfl := Except.ok.inj (ends.symm.trans (resolve_of_unknown contained bare))
    refine ⟨_, _, reach_of_unknown contained, ?_, ?_, ?_⟩
    · simp [distinct, addAllNew, addNew]
    · simp
    · simp [distinct, addAllNew, addNew]
  | true =>
    cases known : bodies.lookUp name column with
    | error error => simp [Bodies.resolve, known] at ends
    | ok found =>
      obtain ⟨opened, walks, succeeds⟩ := walks_of_resolve bare contained known ends
      have split := splitQualified?_qualify bare name
      have opening : links bodies (qualify name column) = some found :=
        links_eq_some_iff.mpr ⟨(name, column), split, contained, by rw [known]; rfl⟩
      obtain ⟨met, columns, unfolds, exact⟩ := walk_exact opening walks (acyclic split free)
      exact ⟨columns, opened, reach_of_walks bare contained known walks succeeds unfolds, exact⟩

/-- A reference that two bodies share is traced from the first of them and kept in the second. -/
theorem trace_shared :
    let bodies : Bodies := { facts := ⟨[("c", Thunk.pure (.ok { columns := ["x"] })),
      ("d", Thunk.pure (.ok { columns := ["c.x"] })),
      ("e", Thunk.pure (.ok { columns := ["c.x", "d.x"], aliases := ⟨[("y", .columns ["c.x", "d.x"])]⟩ }))]⟩ }
    '.' ∉ "y".toList ∧ CycleFree bodies ("e", "y") ∧ bodies.resolve "e" "y" = .ok ["x", "c.x"] ∧
      ∃ references, Reach bodies ("e", "y") ["x", "x"] references ∧
        1 < (qualify "e" "y" :: references.flatMap (targets (links bodies))).count "c.x" := by
  intro bodies
  have e : bodies.lookUp "e" "y" = .ok ["c.x", "d.x"] := by cbv
  have d : bodies.lookUp "d" "x" = .ok ["c.x"] := by cbv
  have c : bodies.lookUp "c" "x" = .ok ["x"] := by cbv
  have toC : splitQualified? "c.x" = some ("c", "x") := by decide
  have toD : splitQualified? "d.x" = some ("d", "x") := by decide
  have toX : splitQualified? "x" = none := by decide
  have bare : '.' ∉ "y".toList := by decide
  have free : CycleFree bodies ("e", "y") := by
    refine cycleFree_of_rank (fun pair => if pair.1 = "e" then 2 else if pair.1 = "d" then 1 else 0)
      [("e", "y"), ("d", "x"), ("c", "x")] ?_ List.mem_cons_self
    rintro source member target ⟨found, known, dotted, inside, -, split, -⟩
    simp only [List.mem_cons, List.not_mem_nil, or_false] at member
    rcases member with rfl | rfl | rfl
    · obtain rfl := Except.ok.inj (known.symm.trans e)
      rcases List.mem_pair.mp inside with rfl | rfl
      · obtain rfl := Option.some.inj (split.symm.trans toC)
        decide
      · obtain rfl := Option.some.inj (split.symm.trans toD)
        decide
    · obtain rfl := Except.ok.inj (known.symm.trans d)
      obtain rfl := List.mem_singleton.mp inside
      obtain rfl := Option.some.inj (split.symm.trans toC)
      decide
    · obtain rfl := Except.ok.inj (known.symm.trans c)
      obtain rfl := List.mem_singleton.mp inside
      cases toX.symm.trans split
  have result : bodies.resolve "e" "y" = .ok ["x", "c.x"] := by cbv
  obtain ⟨columns, references, reach, ended, members, -⟩ := trace_exact_iff bare free result
  have x : Traces bodies ("c", "x") ["x"] ["x"] := .kept (fun target refers => by cases toX.symm.trans refers.2.1) .done
  have throughC : RefersTo bodies ("e", "y") "c.x" ("c", "x") := ⟨by decide, toC, by decide⟩
  have throughD : RefersTo bodies ("e", "y") "d.x" ("d", "x") := ⟨by decide, toD, by decide⟩
  have fromD : RefersTo bodies ("d", "x") "c.x" ("c", "x") := ⟨by decide, toC, by decide⟩
  have traced : Traces bodies ("e", "y") ["c.x", "d.x"] ["x", "x"] :=
    .through throughC c x (.through throughD d (.through fromD c x .done) .done)
  obtain ⟨found, known, traces⟩ := reach.traces
  obtain rfl := Except.ok.inj (known.symm.trans e)
  obtain rfl := traces.unique traced
  rcases (members "c.x").mp (by simp) with column | ⟨-, again⟩
  · exact absurd column (by decide)
  · exact ⟨bare, free, result, references, reach, again⟩

end QueryFacts.Proofs.BodyResolution

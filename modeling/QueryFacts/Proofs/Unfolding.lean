import Mathlib.Data.Fintype.EquivFin
import Mathlib.Data.Set.Finite.Basic
import Mathlib.Logic.Relation
import Mathlib.Order.WellFounded
import QueryFacts.NameGraph

/-! Names that stand for other names, followed in two ways: everywhere that they come up,
or as the walk of a name graph does it, which opens a name only where it first comes up.
Where no cycle can be reached, the walk still finds every name at which following ends, in
the order in which they first come up; what it adds to them is each name that comes up
again after it was opened. -/

namespace QueryFacts.Proofs.Unfolding
open Relation

/-- What each name stands for, and `none` for a name that stands for itself. -/
abbrev Links := String → Option (List String)

variable {links : Links}

/-- A name stands for another one. That it stands for itself too leads nowhere. -/
def Leads (links : Links) (name other : String) : Prop :=
  ∃ found, links name = some found ∧ other ∈ found ∧ other ≠ name

/-- No cycle can be reached from `root`. -/
def Acyclic (links : Links) (root : String) : Prop :=
  ∀ name, ReflTransGen (Leads links) root name → ¬TransGen (Leads links) name name

def targets (links : Links) (name : String) : List String := (links name).getD []

/-- Following a name may end there: it stands for itself, if only among others. -/
def isFinal (links : Links) (name : String) : Bool := (links name).all (name ∈ ·)

theorem isFinal_self {name : String} {found : List String} (opening : links name = some found) (inside : name ∈ found) :
    isFinal links name := by
  simpa [isFinal, opening] using inside

theorem isFinal_closed {name : String} (ends : links name = none) : isFinal links name := by
  simp [isFinal, ends]

/-- The names of a list, for which `owner` stands, followed everywhere: the names opened on
the way, and those at which following ends, both in order and with repetitions. -/
inductive Unfolds (links : Links) : String → List String → List String → List String → Prop where
  | done {owner : String} : Unfolds links owner [] [] []
  | itself {owner : String} {rest met leaves : List String} (others : Unfolds links owner rest met leaves) :
      Unfolds links owner (owner :: rest) met (owner :: leaves)
  | final {owner name : String} {rest met leaves : List String} (ends : links name = none)
      (others : Unfolds links owner rest met leaves) : Unfolds links owner (name :: rest) met (name :: leaves)
  | opens {owner name : String} {found rest met later leaves more : List String} (different : name ≠ owner)
      (opening : links name = some found) (inner : Unfolds links name found met leaves)
      (others : Unfolds links owner rest later more) :
      Unfolds links owner (name :: rest) (name :: (met ++ later)) (leaves ++ more)

/-- The walk from the names of a list, as one that opens a name, follows what the name
stands for, and goes on: the names opened and reached before, and those after it. -/
inductive Walks (links : Links) : List String → List String → List String → List String → List String → Prop where
  | done {opened out : List String} : Walks links [] opened out opened out
  | final {name : String} {rest opened out after reached : List String} (ends : links name = none)
      (others : Walks links rest opened (addNew out name) after reached) :
      Walks links (name :: rest) opened out after reached
  | again {name : String} {rest opened out after reached : List String} (known : name ∈ opened)
      (others : Walks links rest opened (addNew out name) after reached) :
      Walks links (name :: rest) opened out after reached
  | opens {name : String} {found rest opened out between middle after reached : List String}
      (fresh : name ∉ opened) (opening : links name = some found)
      (inner : Walks links found (name :: opened) out between middle)
      (others : Walks links rest between middle after reached) :
      Walks links (name :: rest) opened out after reached

theorem Walks.split {first rest opened out after reached : List String}
    (walks : Walks links (first ++ rest) opened out after reached) :
    ∃ between middle, Walks links first opened out between middle ∧ Walks links rest between middle after reached := by
  induction first generalizing opened out with
  | nil => exact ⟨opened, out, .done, walks⟩
  | cons name first ih =>
    cases walks with
    | final ends others =>
      obtain ⟨between, middle, begins, continues⟩ := ih others
      exact ⟨between, middle, .final ends begins, continues⟩
    | again known others =>
      obtain ⟨between, middle, begins, continues⟩ := ih others
      exact ⟨between, middle, .again known begins, continues⟩
    | opens fresh opening inner others =>
      obtain ⟨between, middle, begins, continues⟩ := ih others
      exact ⟨between, middle, .opens fresh opening inner begins, continues⟩

/-- The links of a name graph, except that `root` stands for the names that the walk starts
from. A name that cannot be opened leads nowhere. -/
def linksFrom {ε : Type} (graph : NameGraph ε) (root : String) (found : List String) : Links := fun name =>
  if name = root then some found
  else (graph.successors name).map fun result => result.toOption.getD []

/-- A walk that ends is one along these links, since it never opens the root again, and
every name that it opens can be opened. -/
theorem walks_of_walk {ε : Type} {graph : NameGraph ε} {root : String} (found : List String)
    {start pending opened out : List String}
    {inside : ∀ name ∈ pending, (graph.successors name).isSome → name ∈ start ++ graph.inner ()} {reached : List String}
    (begun : root ∈ opened) (ends : graph.walk start pending opened out inside = .ok reached) :
    ∃ after, Walks (linksFrom graph root found) pending opened out after reached ∧
      ∀ name ∈ after, name ∈ opened ∨ ∃ names, graph.successors name = some (.ok names) := by
  fun_induction NameGraph.walk graph start pending opened out inside with
  | case1 =>
    cases ends
    exact ⟨_, .done, fun name => .inl⟩
  | case2 opened out name rest _ _ closed _ ih =>
    obtain ⟨after, others, succeeds⟩ := ih begun ends
    refine ⟨after, ?_, succeeds⟩
    by_cases same : name = root
    · exact .again (same ▸ begun) others
    · exact .final (by simp [linksFrom, same, closed]) others
  | case3 opened out name rest _ _ result opening known _ ih =>
    obtain ⟨after, others, succeeds⟩ := ih begun ends
    exact ⟨after, .again known others, succeeds⟩
  | case4 => cases ends
  | case5 opened out name rest _ _ fresh names _ _ opening ih =>
    obtain ⟨after, both, succeeds⟩ := ih (List.mem_cons_of_mem _ begun) ends
    obtain ⟨between, middle, inner, others⟩ := both.split
    have different : name ≠ root := fun same => fresh (same ▸ begun)
    refine ⟨after, .opens fresh ?_ inner others, ?_⟩
    · rw [linksFrom, if_neg different, opening]
      rfl
    · intro other member
      rcases succeeds other member with old | new
      · rcases List.mem_cons.mp old with rfl | older
        · exact .inr ⟨names, opening⟩
        · exact .inl older
      · exact .inr new

section Walk

variable {ε : Type} {graph : NameGraph ε} {start opened out : List String} {name : String}
  {inside : ∀ other ∈ [name], (graph.successors other).isSome → other ∈ start ++ graph.inner ()}

theorem walk_closed (closed : graph.successors name = none) :
    graph.walk start [name] opened out inside = .ok (addNew out name) := by
  unfold NameGraph.walk
  split
  next => rw [NameGraph.walk]
  next result opening => cases closed.symm.trans opening

theorem walk_opens {other : String} (opening : graph.successors name = some (.ok [other])) (fresh : name ∉ opened) :
    ∃ within, graph.walk start [name] opened out inside = graph.walk start [other] (name :: opened) out within := by
  rw [NameGraph.walk]
  split
  next closed => cases closed.symm.trans opening
  next result known =>
    obtain rfl : Except.ok [other] = result := Option.some.inj (opening.symm.trans known)
    rw [dif_neg fresh]
    refine ⟨fun last member opens => ?_, rfl⟩
    rcases graph.closed opening member opens with rfl | known
    · exact inside last List.mem_cons_self opens
    · exact List.mem_append_right _ known

end Walk

/-- A name that stands for itself is all that a walk from it reaches. -/
theorem leaves_of_closed {ε : Type} {graph : NameGraph ε} {name : String} (closed : graph.successors name = none)
    (opened : List String) : graph.leaves [name] opened = .ok [name] := walk_closed closed

/-- A name that is open already stands for itself. -/
theorem leaves_of_opened {ε : Type} {graph : NameGraph ε} {name : String} {opened : List String}
    (seen : name ∈ opened) :
    graph.leaves [name] opened = .ok [name] := by
  unfold NameGraph.leaves NameGraph.walk
  split
  · rw [NameGraph.walk]
    rfl
  · rw [dif_pos seen, NameGraph.walk]
    rfl

/-- What a walk opened, apart from the names opened before it. -/
structure Walks.Opens (links : Links) (pending opened after added : List String) : Prop where
  whole : after = added ++ opened
  nodup : opened.Nodup → after.Nodup
  linked : ∀ name ∈ added, (links name).isSome
  /-- Whatever comes up, and stands for others, is open in the end. -/
  pending : ∀ name ∈ pending, (links name).isSome → name ∈ after
  targets : ∀ name ∈ added, ∀ other ∈ targets links name, (links other).isSome → other ∈ after

theorem targets_of_some {name : String} {found : List String} (opening : links name = some found) :
    targets links name = found := by
  rw [targets, opening, Option.getD_some]

theorem Walks.exists_opens {pending opened out after reached : List String}
    (walks : Walks links pending opened out after reached) : ∃ added, Walks.Opens links pending opened after added := by
  induction walks with
  | @done opened out => exact ⟨[], rfl, id, by simp, by simp, by simp⟩
  | @final name rest opened out after reached ends others ih =>
    obtain ⟨added, whole, nodup, linked, pending, targets⟩ := ih
    refine ⟨added, whole, nodup, linked, ?_, targets⟩
    intro other member opens
    rcases List.mem_cons.mp member with rfl | later
    · simp [ends] at opens
    · exact pending other later opens
  | @again name rest opened out after reached known others ih =>
    obtain ⟨added, whole, nodup, linked, pending, targets⟩ := ih
    refine ⟨added, whole, nodup, linked, ?_, targets⟩
    intro other member opens
    rcases List.mem_cons.mp member with rfl | later
    · exact whole ▸ List.mem_append_right _ known
    · exact pending other later opens
  | @opens name found rest opened out between middle after reached fresh opening inner others ihInner ihOthers =>
    obtain ⟨first, rfl, firstNodup, firstLinked, firstPending, firstTargets⟩ := ihInner
    obtain ⟨second, rfl, secondNodup, secondLinked, secondPending, secondTargets⟩ := ihOthers
    have kept {other : String} (member : other ∈ first ++ name :: opened) :
        other ∈ second ++ (first ++ name :: opened) :=
      List.mem_append_right _ member
    refine ⟨second ++ first ++ [name], by simp, ?_, ?_, ?_, ?_⟩
    · exact fun once => secondNodup (firstNodup (List.nodup_cons.mpr ⟨fresh, once⟩))
    · intro other member
      rcases List.mem_append.mp member with before | last
      · rcases List.mem_append.mp before with new | old
        · exact secondLinked other new
        · exact firstLinked other old
      · simp [List.mem_singleton.mp last, opening]
    · intro other member opens
      rcases List.mem_cons.mp member with rfl | later
      · exact kept (by simp)
      · exact secondPending other later opens
    · intro other member target inside opens
      rcases List.mem_append.mp member with before | last
      · rcases List.mem_append.mp before with new | old
        · exact secondTargets other new target inside opens
        · exact kept (firstTargets other old target inside opens)
      · obtain rfl := List.mem_singleton.mp last
        rw [targets_of_some opening] at inside
        exact kept (firstPending target inside opens)

/-- What a listed target leads to, its name leads to. -/
theorem leads_of_target {name first other : String} {found : List String} (opening : links name = some found)
    (member : first ∈ found) (path : ReflTransGen (Leads links) first other) :
    ReflTransGen (Leads links) name other := by
  by_cases same : first = name
  · exact same ▸ path
  · exact path.head ⟨found, opening, member, same⟩

theorem Walks.leads {pending opened out after reached : List String}
    (walks : Walks links pending opened out after reached) {name : String} (member : name ∈ after) :
    name ∈ opened ∨ ∃ first ∈ pending, ReflTransGen (Leads links) first name := by
  induction walks with
  | done => exact .inl member
  | final ends others ih =>
    rcases ih member with old | ⟨first, inside, path⟩
    · exact .inl old
    · exact .inr ⟨first, List.mem_cons_of_mem _ inside, path⟩
  | again known others ih =>
    rcases ih member with old | ⟨first, inside, path⟩
    · exact .inl old
    · exact .inr ⟨first, List.mem_cons_of_mem _ inside, path⟩
  | @opens head found rest opened out between middle after reached fresh opening inner others ihInner ihOthers =>
    rcases ihOthers member with old | ⟨first, inside, path⟩
    · rcases ihInner old with older | ⟨first, inside, path⟩
      · rcases List.mem_cons.mp older with rfl | oldest
        · exact .inr ⟨name, List.mem_cons_self, .refl⟩
        · exact .inl oldest
      · exact .inr ⟨head, List.mem_cons_self, leads_of_target opening inside path⟩
    · exact .inr ⟨first, List.mem_cons_of_mem _ inside, path⟩

/-- The places where names come up: in a list, and among what each opened name stands for. -/
def places (links : Links) (pending added : List String) : List String := pending ++ added.flatMap (targets links)

theorem Walks.exists_places {pending opened out after reached : List String}
    (walks : Walks links pending opened out after reached) {other : String} (opens : (links other).isSome) :
    ∃ added, after = added ++ opened ∧
      (other ∈ after ↔ other ∈ opened ∨ 0 < (places links pending added).count other) ∧
      (other ∈ reached ↔
          other ∈ out ∨ (if other ∈ opened then 0 else 1) < (places links pending added).count other) := by
  induction walks with
  | done => exact ⟨[], rfl, by simp [places], by simp [places]⟩
  | @final name rest opened out after reached ends others ih =>
    obtain ⟨added, whole, open_, reach⟩ := ih
    have different : name ≠ other := by
      rintro rfl
      simp [ends] at opens
    have same : (places links (name :: rest) added).count other = (places links rest added).count other := by
      simp [places, different]
    refine ⟨added, whole, same ▸ open_, ?_⟩
    rw [same, reach, mem_addNew, or_iff_left (Ne.symm different)]
  | @again name rest opened out after reached known others ih =>
    obtain ⟨added, whole, open_, reach⟩ := ih
    refine ⟨added, whole, ?_, ?_⟩
    · rw [open_]
      by_cases same : name = other
      · simp [places, same ▸ known]
      · simp [places, same]
    · rw [reach, mem_addNew]
      by_cases same : name = other
      · simp [places, same ▸ known, same]
      · simp [places, same, Ne.symm same]
  | @opens name found rest opened out between middle after reached fresh opening inner others ihInner ihOthers =>
    obtain ⟨first, rfl, openFirst, reachFirst⟩ := ihInner
    obtain ⟨second, rfl, openSecond, reachSecond⟩ := ihOthers
    have total : (places links (name :: rest) (second ++ first ++ [name])).count other =
        (if name = other then 1 else 0) + (places links found first).count other +
            (places links rest second).count other := by
      simp only [places, List.flatMap_append, List.flatMap_singleton, targets_of_some opening, List.cons_append,
        List.count_cons, List.count_append, beq_iff_eq]
      omega
    refine ⟨second ++ first ++ [name], by simp, ?_, ?_⟩
    · rw [total, openSecond, openFirst, List.mem_cons]
      grind
    · rw [total, reachSecond, reachFirst]
      simp only [openFirst, List.mem_cons]
      grind

namespace Unfolds
variable {owner : String} {pending met leaves : List String}

theorem unique (unfolds : Unfolds links owner pending met leaves) {otherMet otherLeaves : List String}
    (also : Unfolds links owner pending otherMet otherLeaves) : met = otherMet ∧ leaves = otherLeaves := by
  induction unfolds generalizing otherMet otherLeaves with
  | done =>
    cases also
    exact ⟨rfl, rfl⟩
  | itself others ih =>
    cases also with
    | itself again =>
      obtain ⟨rfl, rfl⟩ := ih again
      exact ⟨rfl, rfl⟩
    | final ends again =>
      obtain ⟨rfl, rfl⟩ := ih again
      exact ⟨rfl, rfl⟩
    | opens different => exact absurd rfl different
  | final ends others ih =>
    cases also with
    | itself again =>
      obtain ⟨rfl, rfl⟩ := ih again
      exact ⟨rfl, rfl⟩
    | final _ again =>
      obtain ⟨rfl, rfl⟩ := ih again
      exact ⟨rfl, rfl⟩
    | opens different opening => cases ends.symm.trans opening
  | opens different opening inner others ihInner ihOthers =>
    cases also with
    | itself => exact absurd rfl different
    | final ends => cases ends.symm.trans opening
    | opens _ again innerAgain othersAgain =>
      obtain rfl := Option.some.inj (opening.symm.trans again)
      obtain ⟨rfl, rfl⟩ := ihInner innerAgain
      obtain ⟨rfl, rfl⟩ := ihOthers othersAgain
      exact ⟨rfl, rfl⟩

/-- A name that was opened on the way was followed everywhere too, and in less. -/
theorem inner (unfolds : Unfolds links owner pending met leaves) {name : String} (member : name ∈ met) :
    ∃ found others more, links name = some found ∧ Unfolds links name found others more ∧
        others.length < met.length := by
  induction unfolds with
  | done => cases member
  | itself others ih => exact ih member
  | final ends others ih => exact ih member
  | opens different opening inner others ihInner ihOthers =>
    simp only [List.length_cons, List.length_append]
    rcases List.mem_cons.mp member with rfl | inside
    · exact ⟨_, _, _, opening, inner, by omega⟩
    · rcases List.mem_append.mp inside with first | later
      · obtain ⟨found, below, more, link, unfolds, shorter⟩ := ihInner first
        exact ⟨found, below, more, link, unfolds, by omega⟩
      · obtain ⟨found, below, more, link, unfolds, shorter⟩ := ihOthers later
        exact ⟨found, below, more, link, unfolds, by omega⟩

/-- Following a name everywhere would never end if it came up again on the way. -/
theorem notMem_met (unfolds : Unfolds links owner pending met leaves) (opening : links owner = some pending) :
    owner ∉ met := by
  intro member
  obtain ⟨found, others, more, link, again, shorter⟩ := unfolds.inner member
  obtain rfl := Option.some.inj (opening.symm.trans link)
  obtain ⟨rfl, -⟩ := unfolds.unique again
  exact Nat.lt_irrefl _ shorter

theorem isFinal_of_mem (unfolds : Unfolds links owner pending met leaves) (own : owner ∈ pending → isFinal links owner)
    {leaf : String} (member : leaf ∈ leaves) : isFinal links leaf := by
  induction unfolds with
  | done => cases member
  | itself others ih =>
    rcases List.mem_cons.mp member with rfl | later
    · exact own List.mem_cons_self
    · exact ih (fun inside => own (List.mem_cons_of_mem _ inside)) later
  | final ends others ih =>
    rcases List.mem_cons.mp member with rfl | later
    · exact isFinal_closed ends
    · exact ih (fun inside => own (List.mem_cons_of_mem _ inside)) later
  | opens different opening inner others ihInner ihOthers =>
    rcases List.mem_append.mp member with first | later
    · exact ihInner (isFinal_self opening) first
    · exact ihOthers (fun inside => own (List.mem_cons_of_mem _ inside)) later

/-- A name that stands for itself among others ends the way to itself. -/
theorem owner_mem (unfolds : Unfolds links owner pending met leaves) (member : owner ∈ pending) : owner ∈ leaves := by
  induction unfolds with
  | done => cases member
  | itself others ih => exact List.mem_cons_self
  | final ends others ih =>
    rcases List.mem_cons.mp member with rfl | later
    · exact List.mem_cons_self
    · exact List.mem_cons_of_mem _ (ih later)
  | opens different opening inner others ihInner ihOthers =>
    rcases List.mem_cons.mp member with rfl | later
    · exact absurd rfl different
    · exact List.mem_append_right _ (ihOthers later)

/-- Every name that comes up on the way is led to. -/
theorem leads (unfolds : Unfolds links owner pending met leaves) {other : String} (member : other ∈ met ++ leaves) :
    ∃ first ∈ pending, ReflTransGen (Leads links) first other := by
  rw [List.mem_append] at member
  induction unfolds with
  | done => simp at member
  | itself others ih =>
    rcases or_left_comm.mp (member.imp_right List.mem_cons.mp) with rfl | later
    · exact ⟨_, List.mem_cons_self, .refl⟩
    · obtain ⟨first, inside, path⟩ := ih later
      exact ⟨first, List.mem_cons_of_mem _ inside, path⟩
  | final ends others ih =>
    rcases or_left_comm.mp (member.imp_right List.mem_cons.mp) with rfl | later
    · exact ⟨_, List.mem_cons_self, .refl⟩
    · obtain ⟨first, inside, path⟩ := ih later
      exact ⟨first, List.mem_cons_of_mem _ inside, path⟩
  | @opens owner name found rest met later leaves more different opening inner others ihInner ihOthers =>
    have parts : other = name ∨ (other ∈ met ∨ other ∈ leaves) ∨ other ∈ later ∨ other ∈ more := by
      simp only [List.mem_cons, List.mem_append] at member
      tauto
    rcases parts with rfl | below | after
    · exact ⟨_, List.mem_cons_self, .refl⟩
    · obtain ⟨first, target, path⟩ := ihInner below
      exact ⟨name, List.mem_cons_self, leads_of_target opening target path⟩
    · obtain ⟨first, inside, path⟩ := ihOthers after
      exact ⟨first, List.mem_cons_of_mem _ inside, path⟩

/-- Where a path from a listed name ends, following ends. -/
theorem mem_of_leads (unfolds : Unfolds links owner pending met leaves) {first leaf : String} (member : first ∈ pending)
    (different : first ≠ owner) (path : ReflTransGen (Leads links) first leaf) (ends : links leaf = none) :
    leaf ∈ leaves := by
  induction unfolds generalizing first with
  | done => cases member
  | itself others ih =>
    rcases List.mem_cons.mp member with rfl | later
    · exact absurd rfl different
    · exact List.mem_cons_of_mem _ (ih later different path)
  | final closed others ih =>
    rcases List.mem_cons.mp member with rfl | later
    · rcases path.cases_head with rfl | ⟨next, ⟨found, opening, -⟩, -⟩
      · exact List.mem_cons_self
      · cases closed.symm.trans opening
    · exact List.mem_cons_of_mem _ (ih later different path)
  | opens _ opening inner others ihInner ihOthers =>
    rcases List.mem_cons.mp member with rfl | later
    · rcases path.cases_head with rfl | ⟨next, ⟨found, link, inside, other⟩, rest⟩
      · cases ends.symm.trans opening
      · obtain rfl := Option.some.inj (opening.symm.trans link)
        exact List.mem_append_left _ (ihInner inside other rest)
    · exact List.mem_append_right _ (ihOthers later different path)

end Unfolds

private theorem exists_unfolds_of_each {owner : String} {pending : List String}
    (each : ∀ name ∈ pending, name ≠ owner → ∀ found, links name = some found →
      ∃ met leaves, Unfolds links name found met leaves) : ∃ met leaves, Unfolds links owner pending met leaves := by
  induction pending with
  | nil => exact ⟨[], [], .done⟩
  | cons name rest ih =>
    obtain ⟨later, more, others⟩ := ih fun other member => each other (List.mem_cons_of_mem _ member)
    by_cases same : name = owner
    · subst same
      exact ⟨later, name :: more, .itself others⟩
    · cases opening : links name with
      | none => exact ⟨later, name :: more, .final opening others⟩
      | some found =>
        obtain ⟨met, leaves, inner⟩ := each name List.mem_cons_self same found opening
        exact ⟨name :: (met ++ later), leaves ++ more, .opens same opening inner others⟩

theorem reachable_opened {root : String} {found opened reached : List String} (opening : links root = some found)
    (walks : Walks links found [root] [] opened reached) {name : String} (path : ReflTransGen (Leads links) root name)
    (opens : (links name).isSome) : name ∈ opened := by
  obtain ⟨added, rfl, nodup, linked, pending, targets⟩ := walks.exists_opens
  induction path with
  | refl => exact List.mem_append_right _ List.mem_cons_self
  | @tail middle last path lead ih =>
    obtain ⟨names, link, inside, different⟩ := lead
    rcases List.mem_append.mp (ih (by simp [link])) with new | start
    · exact targets middle new last (by rwa [targets_of_some link]) opens
    · obtain rfl := List.mem_singleton.mp start
      obtain rfl := Option.some.inj (opening.symm.trans link)
      exact pending last inside opens

theorem opened_reachable {root : String} {found opened reached : List String} (opening : links root = some found)
    (walks : Walks links found [root] [] opened reached) {name : String} (member : name ∈ opened) :
    ReflTransGen (Leads links) root name := by
  rcases walks.leads member with start | ⟨first, inside, path⟩
  · exact List.mem_singleton.mp start ▸ .refl
  · exact leads_of_target opening inside path

/-- Where no cycle can be reached, following ends: the names that it can open are among
those that the walk opens, and these are finitely many. -/
theorem exists_unfolds {root : String} {found opened reached : List String} (opening : links root = some found)
    (walks : Walks links found [root] [] opened reached) (acyclic : Acyclic links root) :
    ∃ met leaves, Unfolds links root found met leaves := by
  let below (name other : {name // name ∈ opened.toFinset}) : Prop := TransGen (Leads links) other.1 name.1
  have transitive : IsTrans _ below := ⟨fun _ _ _ first second => second.trans first⟩
  have irreflexive : Std.Irrefl below :=
    ⟨fun name => acyclic name.1 (opened_reachable opening walks (List.mem_toFinset.mp name.2))⟩
  have descending : WellFounded below := Finite.wellFounded_of_trans_of_irrefl below
  have inside {name : String} (path : ReflTransGen (Leads links) root name) (opens : (links name).isSome) :
      name ∈ opened.toFinset := List.mem_toFinset.mpr (reachable_opened opening walks path opens)
  have each : ∀ name : {name // name ∈ opened.toFinset}, ∀ names, links name.1 = some names →
      ∃ met leaves, Unfolds links name.1 names met leaves := by
    intro name
    induction name using descending.induction with
    | h name ih =>
      intro names link
      apply exists_unfolds_of_each
      intro other member different others further
      have lead : Leads links name.1 other := ⟨names, link, member, different⟩
      have path := opened_reachable opening walks (List.mem_toFinset.mp name.2)
      exact ih ⟨other, inside (path.tail lead) (by simp [further])⟩ (.single lead) others further
  exact each ⟨root, inside .refl (by simp [opening])⟩ found opening

/-- All at which following a name ends has come up already. -/
def Settled (links : Links) (out : List String) (name : String) : Prop :=
  ∀ found met leaves, links name = some found → Unfolds links name found met leaves → ∀ leaf ∈ leaves, leaf ∈ out

theorem Walks.subset {pending opened out after reached : List String}
    (walks : Walks links pending opened out after reached) {name : String} (member : name ∈ out) : name ∈ reached := by
  induction walks with
  | done => exact member
  | final ends others ih => exact ih (mem_addNew.mpr (.inl member))
  | again known others ih => exact ih (mem_addNew.mpr (.inl member))
  | opens fresh opening inner others ihInner ihOthers => exact ihOthers (ihInner member)

theorem Settled.later {out more : List String} {name : String} (settled : Settled links out name)
    (kept : ∀ other ∈ out, other ∈ more) : Settled links more name :=
  fun found met leaves opening unfolds leaf member => kept leaf (settled found met leaves opening unfolds leaf member)

theorem Settled.of_unfolds {name : String} {found met leaves out : List String} (opening : links name = some found)
    (unfolds : Unfolds links name found met leaves) (came : ∀ leaf ∈ leaves, leaf ∈ out) : Settled links out name := by
  intro names again others opened unfoldsAgain leaf member
  obtain rfl := Option.some.inj (opening.symm.trans opened)
  obtain ⟨-, rfl⟩ := unfolds.unique unfoldsAgain
  exact came leaf member

/-- A name that is open already is no news, nor is any at which following it ends. -/
theorem Settled.filter_addNew {name : String} {found met leaves out : List String} (settled : Settled links out name)
    (opening : links name = some found) (inner : Unfolds links name found met leaves) (more : List String) :
    addAllNew ((addNew out name).filter (isFinal links)) more =
      addAllNew (out.filter (isFinal links)) (leaves ++ more) := by
  have came := settled found met leaves opening inner
  have final : ∀ leaf ∈ leaves, isFinal links leaf := fun leaf member =>
    inner.isFinal_of_mem (isFinal_self opening) member
  have same : (addNew out name).filter (isFinal links) = out.filter (isFinal links) := by
    by_cases ends : isFinal links name
    · rw [addNew_of_mem (came name (inner.owner_mem (by simpa [isFinal, opening] using ends)))]
    · exact filter_addNew_of_neg ends out
  have old : addAllNew (out.filter (isFinal links)) leaves = out.filter (isFinal links) :=
    addAllNew_of_subset fun leaf member => List.mem_filter.mpr ⟨came leaf member, final leaf member⟩
  rw [same, addAllNew_append, old]

/-- A walk reaches the names at which following ends in the order in which they first come
up. Those of a name that is open already have come up before. -/
theorem Walks.filter_final {pending opened out after reached : List String}
    (walks : Walks links pending opened out after reached) {owner : String} {met leaves : List String}
    (unfolds : Unfolds links owner pending met leaves) (begun : owner ∈ opened)
    (own : owner ∈ pending → isFinal links owner) (settled : ∀ name ∈ met, name ∈ opened → Settled links out name) :
    reached.filter (isFinal links) = addAllNew (out.filter (isFinal links)) leaves ∧
      ∀ name ∈ after, name ∈ opened ∨ Settled links reached name := by
  have grown {met opened out : List String} (settled : ∀ name ∈ met, name ∈ opened → Settled links out name)
      (other : String) : ∀ name ∈ met, name ∈ opened → Settled links (addNew out other) name :=
    fun name member open_ => (settled name member open_).later fun leaf inside => mem_addNew.mpr (.inl inside)
  induction walks generalizing owner met leaves with
  | done =>
    cases unfolds
    exact ⟨rfl, fun name member => .inl member⟩
  | @final name rest opened out after reached ends others ih =>
    have still : owner ∈ rest → isFinal links owner := fun inside => own (List.mem_cons_of_mem _ inside)
    have keeps := filter_addNew_of_pos (isFinal_closed ends) out
    cases unfolds with
    | itself more =>
      have result := ih more begun still (grown settled _)
      rwa [keeps, ← addAllNew_cons] at result
    | final _ more =>
      have result := ih more begun still (grown settled _)
      rwa [keeps, ← addAllNew_cons] at result
    | opens _ opening => cases ends.symm.trans opening
  | @again name rest opened out after reached known others ih =>
    have still : owner ∈ rest → isFinal links owner := fun inside => own (List.mem_cons_of_mem _ inside)
    cases unfolds with
    | itself more =>
      have result := ih more begun still (grown settled _)
      rwa [filter_addNew_of_pos (own List.mem_cons_self), ← addAllNew_cons] at result
    | final ends more =>
      have result := ih more begun still (grown settled _)
      rwa [filter_addNew_of_pos (isFinal_closed ends), ← addAllNew_cons] at result
    | opens different opening inner following =>
      have before := settled name List.mem_cons_self known
      have later := fun other member => settled other (List.mem_cons_of_mem _ (List.mem_append_right _ member))
      have result := ih following begun still (grown later _)
      rwa [before.filter_addNew opening inner] at result
  | @opens name found rest opened out between middle after reached fresh opening inner others ihInner ihOthers =>
    cases unfolds with
    | itself more => exact absurd begun fresh
    | final ends more => cases ends.symm.trans opening
    | @opens _ _ names _ met later leaves more different link unfolds following =>
      obtain rfl := Option.some.inj (opening.symm.trans link)
      obtain ⟨ended, settledInner⟩ :=
        ihInner unfolds List.mem_cons_self (isFinal_self opening) fun other member open_ => by
        have different : other ≠ name := fun same => unfolds.notMem_met opening (same ▸ member)
        exact settled other (List.mem_cons_of_mem _ (List.mem_append_left _ member))
          ((List.mem_cons.mp open_).resolve_left different)
      have nameSettled : Settled links middle name := .of_unfolds opening unfolds fun leaf member =>
        (List.mem_filter.mp (ended ▸ mem_addAllNew.mpr (.inr member))).1
      have settledMiddle : ∀ other ∈ between, other ∈ opened ∨ Settled links middle other := by
        intro other member
        rcases settledInner other member with old | new
        · rcases List.mem_cons.mp old with rfl | older
          · exact .inr nameSettled
          · exact .inl older
        · exact .inr new
      have kept : owner ∈ between := by
        obtain ⟨added, whole, -⟩ := inner.exists_opens
        rw [whole]
        exact List.mem_append_right _ (List.mem_cons_of_mem _ begun)
      obtain ⟨result, settledAfter⟩ := ihOthers following kept (fun inside => own (List.mem_cons_of_mem _ inside))
        fun other member open_ => by
          rcases settledMiddle other open_ with old | new
          · exact (settled other (List.mem_cons_of_mem _ (List.mem_append_right _ member)) old).later
              fun leaf inside => inner.subset inside
          · exact new
      refine ⟨by rw [result, ended, addAllNew_append], ?_⟩
      intro other member
      rcases settledAfter other member with old | new
      · exact (settledMiddle other old).imp id fun came => came.later fun leaf inside => others.subset inside
      · exact .inr new

section Whole
variable {root : String} {found opened reached : List String}

/-- A name that stands for others is reached where it comes up once more. -/
theorem mem_reached_iff (opening : links root = some found) (walks : Walks links found [root] [] opened reached)
    {other : String} (opens : (links other).isSome) :
    other ∈ reached ↔ 1 < (root :: opened.flatMap (targets links)).count other := by
  obtain ⟨added, rfl, -, reach⟩ := walks.exists_places opens
  have total : (root :: (added ++ [root]).flatMap (targets links)).count other =
      (if root = other then 1 else 0) + (places links found added).count other := by
    simp only [places, List.flatMap_append, List.flatMap_singleton, targets_of_some opening, List.count_cons,
      List.count_append, beq_iff_eq]
    omega
  rw [reach, total]
  by_cases same : root = other
  · simp [same]
  · simp [same, Ne.symm same]

theorem isSome_of_opened (opening : links root = some found) (walks : Walks links found [root] [] opened reached)
    {other : String} (member : other ∈ opened) : (links other).isSome := by
  obtain ⟨added, opens⟩ := walks.exists_opens
  rcases List.mem_append.mp (opens.whole ▸ member) with new | start
  · exact opens.linked other new
  · simp [List.mem_singleton.mp start, opening]

theorem opened_of_reached (walks : Walks links found [root] [] opened reached) {other : String}
    (opens : (links other).isSome) (member : other ∈ reached) : other ∈ opened := by
  obtain ⟨added, rfl, isOpen, reach⟩ := walks.exists_places opens
  have more := (reach.mp member).resolve_left List.not_mem_nil
  exact isOpen.mpr (.inr (Nat.zero_lt_of_lt more))

theorem isSome_of_not_final {other : String} (goes : ¬isFinal links other) : (links other).isSome := by
  cases link : links other with
  | none => exact absurd (isFinal_closed link) goes
  | some names => rfl

theorem filter_reached (opening : links root = some found) (walks : Walks links found [root] [] opened reached)
    {met leaves : List String} (unfolds : Unfolds links root found met leaves) :
    reached.filter (isFinal links) = distinct leaves := by
  refine (walks.filter_final unfolds List.mem_cons_self (isFinal_self opening) ?_).1
  intro name member start
  obtain rfl := List.mem_singleton.mp start
  exact absurd member (unfolds.notMem_met opening)

/-- Where no cycle can be reached, the walk gives the names at which following ends, each
once and in the order in which they first come up, and besides them the names that it opened
and that come up again. -/
theorem walk_exact (opening : links root = some found) (walks : Walks links found [root] [] opened reached)
    (acyclic : Acyclic links root) :
    ∃ met leaves, Unfolds links root found met leaves ∧ reached.filter (· ∈ leaves) = distinct leaves ∧
      (∀ other, other ∈ reached ↔
        other ∈ leaves ∨ other ∈ opened ∧ 1 < (root :: opened.flatMap (targets links)).count other) ∧
      (reached = distinct leaves ↔ ∀ other ∈ opened, other ∉ leaves →
        (root :: opened.flatMap (targets links)).count other ≤ 1) := by
  obtain ⟨met, leaves, unfolds⟩ := exists_unfolds opening walks acyclic
  have ended := filter_reached opening walks unfolds
  have final_of_leaf {other : String} (member : other ∈ leaves) : isFinal links other :=
    unfolds.isFinal_of_mem (isFinal_self opening) member
  have leaf_of_final {other : String} (final : isFinal links other) (member : other ∈ reached) : other ∈ leaves :=
    mem_distinct.mp (ended ▸ List.mem_filter.mpr ⟨member, final⟩)
  have again_iff {other : String} (opens : (links other).isSome) := mem_reached_iff opening walks opens
  refine ⟨met, leaves, unfolds, ?_, ?_, ?_⟩
  · rw [← ended]
    apply List.filter_congr
    intro other member
    rw [Bool.eq_iff_iff, decide_eq_true_iff]
    exact ⟨final_of_leaf, fun final => leaf_of_final final member⟩
  · intro other
    constructor
    · intro member
      by_cases final : isFinal links other
      · exact .inl (leaf_of_final final member)
      · have opens := isSome_of_not_final final
        exact .inr ⟨opened_of_reached walks opens member, (again_iff opens).mp member⟩
    · rintro (member | ⟨member, again⟩)
      · exact (List.mem_filter.mp (ended ▸ mem_distinct.mpr member)).1
      · exact (again_iff (isSome_of_opened opening walks member)).mpr again
  · constructor
    · intro same other member outside
      have absent : other ∉ reached := fun inside => outside (mem_distinct.mp (same ▸ inside))
      exact Nat.le_of_not_lt fun again => absent ((again_iff (isSome_of_opened opening walks member)).mpr again)
    · intro once
      rw [← ended]
      refine (List.filter_eq_self.mpr ?_).symm
      intro other member
      apply Classical.byContradiction
      intro goes
      have opens := isSome_of_not_final goes
      have outside : other ∉ leaves := fun leaf => goes (final_of_leaf leaf)
      have again := (again_iff opens).mp member
      exact absurd (once other (opened_of_reached walks opens member) outside) (Nat.not_le_of_lt again)

end Whole

end QueryFacts.Proofs.Unfolding

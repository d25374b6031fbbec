import Mathlib.Data.List.Induction
import QueryFacts.Section

/-! Names by clause: what each clause has after more names are added, and the map that mentions
of names build up one after the other. -/

namespace QueryFacts

/-- Every clause, in the order of the clauses. -/
def Section.all : List Section := [.select, .filter, .orderBy, .groupBy, .join, .insert, .update, .having]

namespace SectionMap

/-- Adds names, each to the clause that it is mentioned in. -/
def addUses (map : SectionMap) (uses : List (String × Section)) : SectionMap :=
  uses.foldl (fun map use => map.add use.2 [use.1]) map

/-- The map of names that are mentioned in clauses one after the other. -/
def grouped (uses : List (String × Section)) : SectionMap := SectionMap.addUses [] uses

/-- The names that are mentioned in a clause. -/
def namesIn (uses : List (String × Section)) (sec : Section) : List String := (uses.filter (·.2 = sec)).map (·.1)

/-- What a clause has, if it has names. -/
def group? (names : Section → List String) (sec : Section) : Option (Section × List String) :=
  if names sec = [] then none else some (sec, distinct (names sec))

/-- The clauses that have names, each name once. -/
def ofNames (names : Section → List String) : SectionMap := Section.all.filterMap (group? names)

variable {map : SectionMap} {sec other : Section} {names : List String} {uses : List (String × Section)}

theorem find?_cons (entry : Section × List String) (map : SectionMap) :
    SectionMap.find? (entry :: map) sec = if sec = entry.1 then some entry.2 else map.find? sec := by
  rw [find?, List.lookup_cons]
  by_cases same : sec = entry.1
  · simp [same]
  · simp [same, beq_eq_false_iff_ne.mpr same, find?]

theorem find?_eq_none (absent : ∀ entry ∈ map, entry.1 ≠ sec) : map.find? sec = none := by
  induction map with
  | nil => rfl
  | cons entry map ih =>
    rw [find?_cons, if_neg (Ne.symm (absent entry List.mem_cons_self))]
    exact ih fun later member => absent later (List.mem_cons_of_mem _ member)

theorem Proper.tail {entry : Section × List String} (proper : Proper (entry :: map)) : map.Proper :=
  ⟨(List.pairwise_cons.mp proper.ordered).2, fun later member => proper.once later (List.mem_cons_of_mem _ member),
    fun later member => proper.named later (List.mem_cons_of_mem _ member)⟩

/-- The clauses are in their order. -/
abbrev Ordered (map : SectionMap) : Prop := map.Pairwise fun first second => first.1.ctorIdx < second.1.ctorIdx

/-- Only the clause that names are added to has more names then. -/
theorem find?_add (ordered : map.Ordered) : (map.add sec names).find? other =
    if other = sec then some (addAllNew ((map.find? sec).getD []) names) else map.find? other := by
  induction map with
  | nil => rw [add, find?_cons]; rfl
  | cons entry map ih =>
    obtain ⟨first, known⟩ := entry
    obtain ⟨below, sorted⟩ := List.pairwise_cons.mp ordered
    unfold add
    split
    next same =>
      subst same
      simp only [find?_cons, if_true, Option.getD_some]
      split <;> rfl
    next apart =>
      split
      next earlier =>
        have absent : SectionMap.find? ((first, known) :: map) sec = none := by
          refine find?_eq_none fun later member same => ?_
          rcases List.mem_cons.mp member with rfl | member
          · exact apart same
          · have after := below later member
            rw [same] at after
            exact Nat.lt_asymm earlier after
        rw [find?_cons, absent]
        rfl
      next late =>
        rw [find?_cons, ih sorted, find?_cons, find?_cons]
        by_cases here : other = first
        · rw [if_pos here, if_pos here, if_neg (fun same => apart (here.symm.trans same))]
        · rw [if_neg here, if_neg here, if_neg (Ne.symm apart)]

/-- Maps in the order of the clauses are told apart by what the clauses have. -/
theorem eq_of_find? {first second : SectionMap} (proper : first.Proper) (also : second.Proper)
    (same : ∀ sec, first.find? sec = second.find? sec) : first = second := by
  have absent {entry : Section × List String} {map : SectionMap} (proper : Proper (entry :: map)) {sec : Section}
      (early : sec.ctorIdx ≤ entry.1.ctorIdx) : map.find? sec = none := by
    refine find?_eq_none fun later member here => ?_
    have after := (List.pairwise_cons.mp proper.ordered).1 later member
    rw [here] at after
    exact Nat.lt_irrefl _ (Nat.lt_of_le_of_lt early after)
  induction first generalizing second with
  | nil =>
    cases second with
    | nil => rfl
    | cons entry second =>
      have here := same entry.1
      rw [find?_cons, if_pos rfl] at here
      cases here
  | cons entry first ih =>
    cases second with
    | nil =>
      have here := same entry.1
      rw [find?_cons, if_pos rfl] at here
      cases here
    | cons entry' second =>
      -- The earlier of the two heads would be missing from the other map.
      have heads : entry.1 = entry'.1 := by
        rcases Nat.lt_trichotomy entry.1.ctorIdx entry'.1.ctorIdx with early | level | late
        · have here := same entry.1
          rw [find?_cons, if_pos rfl, find?_cons,
            if_neg (fun equal => by rw [equal] at early; exact Nat.lt_irrefl _ early), absent also
              (Nat.le_of_lt early)] at here
          cases here
        · exact Section.eq_of_ctorIdx_eq level
        · have here := same entry'.1
          rw [find?_cons, if_neg (fun equal => by rw [equal] at late; exact Nat.lt_irrefl _ late),
            find?_cons, if_pos rfl, absent proper (Nat.le_of_lt late)] at here
          cases here
      have values := same entry.1
      rw [find?_cons, if_pos rfl, find?_cons, if_pos heads] at values
      obtain rfl : entry = entry' := Prod.ext heads (Option.some.inj values)
      refine congrArg (entry :: ·) (ih proper.tail also.tail fun sec => ?_)
      by_cases here : sec = entry.1
      · rw [absent proper (Nat.le_of_eq (congrArg Section.ctorIdx here)),
          absent also (Nat.le_of_eq (congrArg Section.ctorIdx here))]
      · have later := same sec
        rwa [find?_cons, find?_cons, if_neg here, if_neg here] at later

theorem proper_grouped (uses : List (String × Section)) : (grouped uses).Proper :=
  List.foldlRecOn (motive := Proper) uses _ Proper.empty fun _ proper _ _ => proper.add (List.cons_ne_nil _ _)

theorem mem_names_grouped {name : String} : name ∈ (grouped uses).names ↔ name ∈ uses.map (·.1) := by
  induction uses using List.reverseRecOn with
  | nil => rfl
  | append_singleton uses use ih =>
    have last : grouped (uses ++ [use]) = (grouped uses).add use.2 [use.1] := List.foldl_append
    rw [last, mem_names_add, ih, List.map_append, List.mem_append]
    rfl

theorem namesIn_append (uses more : List (String × Section)) :
    namesIn (uses ++ more) sec = namesIn uses sec ++ namesIn more sec := by
  simp [namesIn]

theorem namesIn_map (names : List String) (sec other : Section) :
    namesIn (names.map (·, sec)) other = if sec = other then names else [] := by
  unfold namesIn
  split
  next same =>
    have all : (names.map (·, sec)).filter (·.2 = other) = names.map (·, sec) :=
      List.filter_eq_self.mpr fun use member => by
      obtain ⟨name, -, rfl⟩ := List.mem_map.mp member
      exact decide_eq_true same
    rw [all, List.map_map]
    exact List.map_id names
  next apart =>
    have nothing : (names.map (·, sec)).filter (·.2 = other) = [] := List.filter_eq_nil_iff.mpr fun use member => by
      obtain ⟨name, -, rfl⟩ := List.mem_map.mp member
      simpa using apart
    rw [nothing, List.map_nil]

/-- A clause has the names that are mentioned in it, each once. -/
theorem find?_grouped : (grouped uses).find? sec =
    if namesIn uses sec = [] then none else some (distinct (namesIn uses sec)) := by
  induction uses using List.reverseRecOn with
  | nil => rfl
  | append_singleton uses use ih =>
    have last : grouped (uses ++ [use]) = (grouped uses).add use.2 [use.1] := List.foldl_append
    rw [last, find?_add (proper_grouped uses).ordered, namesIn_append]
    by_cases here : sec = use.2
    · subst here
      have one : namesIn [use] use.2 = [use.1] := by simp [namesIn]
      have known : ((grouped uses).find? use.2).getD [] = distinct (namesIn uses use.2) := by
        rw [ih]
        split
        next nothing => rw [nothing]; rfl
        next => rfl
      rw [if_pos rfl, known, one, if_neg (by simp), distinct, distinct, addAllNew_append]
    · have none' : namesIn [use] sec = [] := by simp [namesIn, Ne.symm here]
      rw [if_neg here, none', List.append_nil, ih]

section Listed

/-- The names that a clause has. -/
def listed (map : SectionMap) (sec : Section) : List String := (map.find? sec).getD []

theorem listed_cons (entry : Section × List String) (map : SectionMap) :
    SectionMap.listed (entry :: map) sec = if sec = entry.1 then entry.2 else map.listed sec := by
  rw [listed, find?_cons]
  split <;> rfl

theorem listed_add (ordered : map.Ordered) (names : List String) :
    (map.add sec names).listed other = if other = sec then addAllNew (map.listed sec) names else map.listed other := by
  rw [listed, find?_add ordered]
  split <;> rfl

theorem ordered_addUses (ordered : map.Ordered) (uses : List (String × Section)) : (map.addUses uses).Ordered :=
  List.foldlRecOn (motive := Ordered) uses _ ordered fun _ ordered _ _ => ordered_add ordered

theorem listed_addUses (ordered : map.Ordered) (uses : List (String × Section)) :
    (map.addUses uses).listed sec = addAllNew (map.listed sec) (namesIn uses sec) := by
  induction uses generalizing map with
  | nil => rfl
  | cons use uses ih =>
    have later :
        (map.addUses (use :: uses)).listed sec = addAllNew ((map.add use.2 [use.1]).listed sec) (namesIn uses sec) :=
      ih (ordered_add ordered)
    have split : namesIn (use :: uses) sec = namesIn [use] sec ++ namesIn uses sec := namesIn_append [use] uses
    rw [later, listed_add ordered, split, addAllNew_append]
    by_cases here : sec = use.2
    · simp [here, namesIn]
    · simp [here, namesIn, Ne.symm here]

/-- Names that are added list by list. -/
theorem listed_addLists (ordered : map.Ordered) (lists : List (List String)) :
    (lists.foldl (fun map names => map.add other names) map).Ordered ∧
      (lists.foldl (fun map names => map.add other names) map).listed sec =
        if sec = other then addAllNew (map.listed sec) lists.flatten else map.listed sec := by
  induction lists generalizing map with
  | nil => exact ⟨ordered, by simp⟩
  | cons names lists ih =>
    obtain ⟨sorted, later⟩ := ih (ordered_add ordered)
    refine ⟨sorted, ?_⟩
    rw [List.foldl_cons, later, listed_add ordered, List.flatten_cons, addAllNew_append]
    by_cases here : sec = other
    · simp [here]
    · simp [here]

theorem mem_names_of_listed {name : String} (member : name ∈ map.listed sec) : name ∈ map.names := by
  induction map with
  | nil => cases member
  | cons entry map ih =>
    rw [listed_cons] at member
    rw [names_cons, List.mem_append]
    split at member
    · exact .inl member
    · exact .inr (ih member)

theorem find?_of_listed {name : String} (member : name ∈ map.listed sec) : map.find? sec = some (map.listed sec) := by
  unfold listed at member ⊢
  cases found : map.find? sec with
  | none => rw [found] at member; cases member
  | some names => rfl

end Listed

section OfNames

variable {entries : Section → List String} {entry : Section × List String}

private theorem group?_eq_none (nothing : entries sec = []) : group? entries sec = none := if_pos nothing

private theorem group?_eq_some (more : entries sec ≠ []) : group? entries sec = some (sec, distinct (entries sec)) :=
  if_neg more

private theorem of_group? (told : group? entries sec = some entry) :
    entry = (sec, distinct (entries sec)) ∧ entries sec ≠ [] := by
  by_cases nothing : entries sec = []
  · rw [group?_eq_none nothing] at told
    cases told
  · rw [group?_eq_some nothing] at told
    exact ⟨(Option.some.inj told).symm, nothing⟩

theorem proper_ofNames (entries : Section → List String) : (ofNames entries).Proper where
  ordered := by
    have sorted : Section.all.Pairwise fun first second => first.ctorIdx < second.ctorIdx := by decide
    refine sorted.filterMap _ fun first second before found told other also => ?_
    rw [(of_group? told).1, (of_group? also).1]
    exact before
  once entry member := by
    obtain ⟨sec, -, told⟩ := List.mem_filterMap.mp member
    rw [(of_group? told).1]
    exact nodup_distinct _
  named entry member := by
    obtain ⟨sec, -, told⟩ := List.mem_filterMap.mp member
    rw [(of_group? told).1]
    exact addAllNew_ne_nil (of_group? told).2

theorem find?_ofNames : (ofNames entries).find? sec = if entries sec = [] then
    none else some (distinct (entries sec)) := by
  have every : sec ∈ Section.all := by cases sec <;> decide
  have listed (secs : List Section) (inside : sec ∈ secs) :
      SectionMap.find? (secs.filterMap (group? entries)) sec = (group? entries sec).map (·.2) := by
    induction secs with
    | nil => cases inside
    | cons first secs ih =>
      cases told : group? entries first with
      | none =>
        rw [List.filterMap_cons_none told]
        rcases List.mem_cons.mp inside with rfl | later
        · rw [told]
          refine find?_eq_none fun entry member same => ?_
          obtain ⟨other, -, also⟩ := List.mem_filterMap.mp member
          rw [(of_group? also).1] at same
          subst same
          rw [told] at also
          cases also
        · exact ih later
      | some found =>
        rw [List.filterMap_cons_some told, find?_cons, (of_group? told).1]
        by_cases here : sec = first
        · subst here
          rw [if_pos rfl, told, (of_group? told).1]
          rfl
        · rw [if_neg here, ih ((List.mem_cons.mp inside).resolve_left here)]
  rw [ofNames, listed Section.all every]
  by_cases nothing : entries sec = []
  · rw [group?_eq_none nothing, if_pos nothing]
    rfl
  · rw [group?_eq_some nothing, if_neg nothing]
    rfl

/-- Names that are mentioned one after the other are grouped by clause. -/
theorem grouped_eq (uses : List (String × Section)) : grouped uses = ofNames (namesIn uses) :=
  eq_of_find? (proper_grouped uses) (proper_ofNames _) fun sec => by rw [find?_grouped, find?_ofNames]

end OfNames

end SectionMap

end QueryFacts

import QueryFacts.Proofs.Selections

/-! Texts put together from parts. A part begins where a word, a value or a parenthesis may end
and ends with one of these, so that parts are read one after the other as they are read alone. -/

namespace QueryFacts.Lexeme
open Text

/-- A keyword that is a function in front of a parenthesis. -/
def isCallable (lexeme : Lexeme) : Bool := lexeme.isKeyword && Keyword.isFunctionLike (upper lexeme.value)

end QueryFacts.Lexeme

namespace QueryFacts.Proofs.TextParts
open Text Lexeme PlainText SelectList Selections ColumnListStatement

/-- It may stand after a word, a value or a closing parenthesis, or, if `glued`, after an opening one. -/
structure Leads (glued : Bool) (lexeme : Lexeme) : Prop where
  apart : (glued || lexeme.spaceBefore || lexeme.kind == .punctuation) = true
  noDot : lexeme.kind ≠ .dot
  noWildcard : lexeme.kind ≠ .wildcard
  noOpening : lexeme.value ≠ "("
  noStar : lexeme.value ≠ "*"

/-- A word, a value or a parenthesis. -/
structure Ends (lexeme : Lexeme) : Prop where
  noDot : lexeme.kind ≠ .dot
  noOperator : lexeme.kind ≠ .operator

/-- Lexemes that a text may be put together from. -/
structure Part (glued : Bool) (lexemes : List Lexeme) : Prop where
  plain : ∀ lexeme ∈ lexemes, lexeme.Plain
  near : lexemes.IsChain Near
  leads : ∀ lexeme ∈ lexemes.head?, Leads glued lexeme
  ends : ∀ lexeme ∈ lexemes.getLast?, Ends lexeme

section Neighbours

variable {first next : Lexeme}

theorem Leads.weaken (leads : Leads false next) (glued : Bool) : Leads glued next :=
  ⟨by cases glued with
    | true => rfl
    | false => exact leads.apart, leads.noDot, leads.noWildcard, leads.noOpening, leads.noStar⟩

private theorem keepsKind_of_leads {glued : Bool} (noDot : first.kind ≠ .dot) (leads : Leads glued next) :
    keepsKind first next = true := by
  have dot : (first.kind == .dot) = false ∧ (next.kind == .dot) = false :=
    ⟨beq_eq_false_iff_ne.mpr noDot, beq_eq_false_iff_ne.mpr leads.noDot⟩
  have opening : next.isPunctuation "(" = false := by
    rw [isPunctuation, beq_eq_false_iff_ne.mpr leads.noOpening, Bool.and_false]
  have star : (next.value != "*") = true := bne_iff_ne.mpr leads.noStar
  have wildcard := leads.noWildcard
  unfold keepsKind
  rw [dot.1, dot.2, opening, star]
  cases kind : next.kind <;> simp_all

theorem near_of_leads (ends : Ends first) (leads : Leads false next) : Near first next := by
  refine ⟨?_, keepsKind_of_leads ends.noDot leads⟩
  have noDot := ends.noDot
  have noOperator := ends.noOperator
  rcases (Bool.or_eq_true _ _).mp leads.apart with space | mark
  · rw [show next.spaceBefore = true by simpa using space, Bool.true_or]
  · rw [glues, mark]
    cases kind : first.kind <;> simp_all

theorem near_after_opening {apart : Bool} (leads : Leads true next) : Near ⟨.punctuation, "(", none, apart⟩ next :=
  ⟨by rw [glues, Bool.or_true], keepsKind_of_leads nofun leads⟩

private theorem keepsKind_opening (noCall : first.isCallable = false) (apart : Bool) :
    keepsKind first ⟨.punctuation, "(", none, apart⟩ = true := by
  unfold isCallable at noCall
  have call : (first.isKeyword && (⟨.punctuation, "(", none, apart⟩ : Lexeme).isPunctuation "(" &&
      Keyword.isFunctionLike (upper first.value)) = false := by rw [Bool.and_right_comm, noCall, Bool.false_and]
  rw [keepsKind, call]
  simp [isKeyword]

theorem near_opening {apart : Bool} (ends : Ends first) (noCall : first.isCallable = false) :
    Near first ⟨.punctuation, "(", none, apart⟩ := by
  have noDot := ends.noDot
  have noOperator := ends.noOperator
  refine ⟨?_, keepsKind_opening noCall apart⟩
  rw [glues]
  cases kind : first.kind <;> simp_all

theorem near_opening_apart (noCall : first.isCallable = false) : Near first ⟨.punctuation, "(", none, true⟩ :=
  ⟨rfl, keepsKind_opening noCall true⟩

theorem near_closing (ends : Ends first) : Near first closing :=
  near_of_leads ends ⟨rfl, nofun, nofun, by decide, by decide⟩

theorem near_space_after (noDot : first.kind ≠ .dot) (space : next.spaceBefore = true) (leads : Leads false next) :
    Near first next := ⟨by rw [space, Bool.true_or], keepsKind_of_leads noDot leads⟩

end Neighbours

section Parts

variable {glued : Bool}

theorem part_nil (glued : Bool) : Part glued [] := ⟨nofun, List.isChain_nil, nofun, nofun⟩

theorem part_single {lexeme : Lexeme} (plain : lexeme.Plain) (leads : Leads glued lexeme) (ends : Ends lexeme) :
    Part glued [lexeme] where
  plain _ member := List.mem_singleton.mp member ▸ plain
  near := List.isChain_singleton _
  leads _ found := Option.some.inj found ▸ leads
  ends _ found := Option.some.inj found ▸ ends

theorem Part.append {first rest : List Lexeme} (begins : Part glued first) (later : Part false rest) :
    Part glued (first ++ rest) where
  plain lexeme member := (List.mem_append.mp member).elim (begins.plain lexeme) (later.plain lexeme)
  near := List.isChain_append.mpr ⟨begins.near, later.near, fun last ends next leads =>
    near_of_leads (begins.ends last ends) (later.leads next leads)⟩
  leads lexeme found := by
    cases first with
    | nil => exact (later.leads lexeme found).weaken glued
    | cons head tail => exact begins.leads lexeme found
  ends lexeme found := by
    rw [List.getLast?_append] at found
    cases ends : rest.getLast? with
    | none => exact begins.ends lexeme (by simpa [ends] using found)
    | some last => exact later.ends lexeme (by simpa [ends] using found)

theorem part_flatMap {α : Type} {items : List α} {part : α → List Lexeme}
    (each : ∀ item ∈ items, Part false (part item)) :
    Part false (items.flatMap part) := by
  induction items with
  | nil => exact part_nil false
  | cons item items ih =>
    exact (each item List.mem_cons_self).append (ih fun other member => each other (List.mem_cons_of_mem _ member))

/-- A parenthesis after a part that does not end with the name of a function. -/
theorem Part.group {before inner : List Lexeme} (begins : Part glued before) (some : before ≠ [])
    (noCall : ∀ last ∈ before.getLast?, last.isCallable = false) (inside : Part true inner) (apart : Bool) :
    Part glued (before ++ ⟨.punctuation, "(", none, apart⟩ :: (inner ++ [closing])) where
  plain lexeme member := by
    simp only [List.mem_append, List.mem_cons, List.not_mem_nil, or_false] at member
    rcases member with front | rfl | within | rfl
    · exact begins.plain lexeme front
    · exact .mark (.inl rfl)
    · exact inside.plain lexeme within
    · exact .mark (.inr (.inl rfl))
  near := by
    have closed : (inner ++ [closing]).IsChain Near :=
      List.isChain_append.mpr ⟨inside.near, List.isChain_singleton _, fun last ends next found =>
        Option.some.inj found ▸ near_closing (inside.ends last ends)⟩
    refine List.isChain_append.mpr ⟨begins.near, ?_, fun last ends next found => ?_⟩
    · cases inner with
      | nil =>
        exact List.isChain_cons_cons.mpr ⟨near_after_opening ⟨rfl, nofun, nofun, by decide, by decide⟩, closed⟩
      | cons head tail => exact List.isChain_cons_cons.mpr ⟨near_after_opening (inside.leads head rfl), closed⟩
    · cases found
      exact near_opening (begins.ends last ends) (noCall last ends)
  leads lexeme found := by
    obtain ⟨head, tail, rfl⟩ := List.exists_cons_of_ne_nil some
    exact begins.leads lexeme found
  ends lexeme found := by
    rw [← List.cons_append, ← List.append_assoc, List.getLast?_concat] at found
    cases found
    exact ⟨nofun, nofun⟩

theorem part_name {name : String} (spelled : isIdentifier name.toList = true)
    (free : Keyword.isReserved (upper name) = false)
    {apart : Bool} (space : (glued || apart) = true) : Part glued [ofName name apart] := by
  refine part_single (.word spelled (by simp [free]))
    ⟨by simpa [ofName] using space, nofun, nofun, ?_, ?_⟩ ⟨nofun, nofun⟩
  all_goals
    rintro (rfl : name = _)
    exact absurd spelled (by decide)

theorem part_keyword {word : String} (spelled : isIdentifier word.toList = true)
    (reserved : Keyword.isReserved (upper word) = true) : Part glued [ofKeyword word true] := by
  refine part_single (plain_keyword spelled reserved true) ⟨by simp [ofKeyword], nofun, nofun, ?_, ?_⟩ ⟨nofun, nofun⟩
  all_goals
    rintro (rfl : word = _)
    exact absurd spelled (by decide)

theorem part_comma : Part glued [comma] :=
  part_single (.mark (.inr (.inr rfl))) ⟨by simp [comma], nofun, nofun, by decide, by decide⟩ ⟨nofun, nofun⟩

/-- A text that begins with a space is one of its own. -/
theorem Part.readable {lexemes : List Lexeme} (part : Part glued lexemes)
    (first : ∀ lexeme ∈ lexemes.head?, lexeme.spaceBefore = true ∧ lexeme.kind ≠ .operator) : Readable lexemes :=
  .of_plain part.plain part.near first

end Parts

end QueryFacts.Proofs.TextParts

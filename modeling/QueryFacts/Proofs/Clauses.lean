import QueryFacts.Proofs.ColumnListStatement
import QueryFacts.Proofs.Spots

/-! Which clause the lexemes of a part of a statement stand in: parts that stay in the clause that
they begin in, parentheses after which it goes on, and parts that some clauses never come up in. -/

namespace QueryFacts

/-- Neither a parenthesis nor a keyword that begins a clause. -/
def Lexeme.Staying (lexeme : Lexeme) : Prop :=
  lexeme.side? = none ∧ (lexeme.isKeyword = true → Keyword.isInsignificant lexeme.normalized = true)

/-- Neither a parenthesis nor a keyword. -/
def Lexeme.Wordless (lexeme : Lexeme) : Prop := lexeme.side? = none ∧ lexeme.isKeyword = false

/-- No keyword that begins one of the clauses. -/
def Lexeme.Avoids (clauses : String → Bool) (lexeme : Lexeme) : Prop :=
  lexeme.isKeyword = true → Keyword.isInsignificant lexeme.normalized = true ∨ clauses lexeme.normalized = false

namespace Context

/-- The clause and the parentheses are the same again. -/
structure Resumes (context later : Context) : Prop where
  clause : later.clause = context.clause
  outside : later.outside = context.outside
  opened : later.opened = context.opened

/-- In none of the clauses, nor after any of the parentheses that are open. -/
structure Avoids (clauses : String → Bool) (context : Context) : Prop where
  here : clauses (context.clause.getD "") = false
  later : ∀ frame ∈ context.opened, clauses (frame.clause.getD "") = false

variable {context : Context} {clauses : String → Bool}

/-- Only after some keywords a parenthesis is a sub-query. -/
theorem parenKind_ne_subquery
    (other : ∀ last ∈ context.last, (last.isKeyword && Keyword.precedesSubquery last.normalized) = false) :
    context.parenKind ≠ .subquery := by
  unfold Context.parenKind
  split
  · exact nofun
  next last found =>
    rw [other last found, if_neg Bool.false_ne_true]
    repeat' split
    all_goals exact nofun

theorem Resumes.trans {later last : Context} (first : context.Resumes later) (second : later.Resumes last) :
    context.Resumes last :=
  ⟨second.clause.trans first.clause, second.outside.trans first.outside, second.opened.trans first.opened⟩

theorem Avoids.step (avoids : context.Avoids clauses) {lexeme : Lexeme} (none : lexeme.Avoids clauses) :
    (context.step lexeme).Avoids clauses := by
  obtain ⟨here, later⟩ := avoids
  unfold Context.step
  split
  · refine ⟨here, fun frame member => ?_⟩
    rcases List.mem_cons.mp member with rfl | outer
    · exact here
    · exact later frame outer
  · split
    · exact ⟨here, later⟩
    next frame outer opened =>
      rw [opened] at later
      exact ⟨later frame List.mem_cons_self, fun other member => later other (List.mem_cons_of_mem _ member)⟩
  · split
    next keyword =>
      refine ⟨?_, later⟩
      change clauses ((if Keyword.isInsignificant lexeme.normalized then context.clause
        else some lexeme.normalized).getD "") = false
      split
      · exact here
      next significant => exact (none keyword).resolve_left significant
    · exact ⟨here, later⟩

theorem Avoids.after (avoids : context.Avoids clauses) {part : List Lexeme}
    (none : ∀ lexeme ∈ part, lexeme.Avoids clauses) :
    (context.after part).Avoids clauses := by
  induction part generalizing context with
  | nil => exact avoids
  | cons lexeme part ih =>
    exact ih (avoids.step (none lexeme List.mem_cons_self)) fun other member =>
      none other (List.mem_cons_of_mem _ member)

end Context

end QueryFacts

namespace QueryFacts.Proofs.Clauses
open Lexeme ColumnListStatement NestingRun

variable {context : Context} {lexeme : Lexeme} {clauses : String → Bool}

/-- The clauses do not come up in the part. -/
theorem clause_of_avoids {part before after : List Lexeme} (avoids : context.Avoids clauses)
    (none : ∀ lexeme ∈ part, lexeme.Avoids clauses) :
    ∀ spot ∈ spots context before part after, clauses spot.clause = false := by
  intro spot member
  induction part generalizing context before with
  | nil => cases member
  | cons lexeme part ih =>
    rcases List.mem_cons.mp member with rfl | later
    · exact avoids.here
    · exact ih (avoids.step (none lexeme List.mem_cons_self))
        (fun other inside => none other (List.mem_cons_of_mem _ inside)) later

theorem avoids_of_staying (staying : lexeme.Staying) : lexeme.Avoids clauses := fun keyword => .inl (staying.2 keyword)

/-- Without keywords no clause comes up. -/
theorem avoids_unkeyed (noKeyword : lexeme.isKeyword = false) : lexeme.Avoids clauses := fun keyword =>
  absurd (noKeyword.symm.trans keyword) Bool.false_ne_true

theorem unkeyed_of_name (named : lexeme.isName = true) : lexeme.isKeyword = false := by
  rw [Lexeme.isKeyword, eq_of_beq named]
  rfl

theorem wordless_of_name (named : lexeme.isName = true) : lexeme.Wordless :=
  ⟨Spots.side?_of_name named, unkeyed_of_name named⟩

theorem staying_of_wordless (wordless : lexeme.Wordless) : lexeme.Staying :=
  ⟨wordless.1, fun keyword => absurd (wordless.2.symm.trans keyword) (by decide)⟩

theorem reads_of_wordless (wordless : lexeme.Wordless) (word : String) : lexeme.reads word = false := by
  rw [reads, wordless.2, Bool.false_and]

theorem closing_of_wordless (wordless : lexeme.Wordless) : lexeme.isPunctuation ")" = false := by
  rw [Bool.eq_false_iff]
  intro closing
  cases (side?_eq_closing.mpr closing).symm.trans wordless.1

theorem step_significant (context : Context) (lexeme : Lexeme) (keyword : lexeme.isKeyword = true)
    (significant : Keyword.isInsignificant lexeme.normalized = false) :
    (context.step lexeme).clause = some lexeme.normalized ∧ (context.step lexeme).outside = false ∧
      (context.step lexeme).opened = context.opened := by
  simp [Context.step, side?_of_keyword keyword, keyword, significant]

theorem resumes_step (staying : lexeme.Staying) : context.Resumes (context.step lexeme) := by
  obtain ⟨side, word⟩ := staying
  cases keyword : lexeme.isKeyword with
  | false =>
    have same : context.step lexeme = { context with last := some lexeme } := by simp [Context.step, side, keyword]
    rw [same]
    exact ⟨rfl, rfl, rfl⟩
  | true =>
    have same : context.step lexeme =
        { context with last := some lexeme, headers := context.headersAfter lexeme.normalized } := by
      simp [Context.step, side, keyword, word keyword]
    rw [same]
    exact ⟨rfl, rfl, rfl⟩

theorem resumes_after {part : List Lexeme} (staying : ∀ lexeme ∈ part, lexeme.Staying) :
    context.Resumes (context.after part) := by
  induction part generalizing context with
  | nil => exact ⟨rfl, rfl, rfl⟩
  | cons lexeme part ih =>
    have here : context.Resumes (context.step lexeme) := resumes_step (staying lexeme List.mem_cons_self)
    exact here.trans (ih fun other member => staying other (List.mem_cons_of_mem _ member))

theorem opened_step (flat : lexeme.side? = none) : (context.step lexeme).opened = context.opened := by
  simp only [Context.step, flat]
  split <;> rfl

theorem opened_after {part : List Lexeme} (flat : ∀ lexeme ∈ part, lexeme.side? = none) :
    (context.after part).opened = context.opened := by
  induction part generalizing context with
  | nil => rfl
  | cons lexeme part ih =>
    exact (ih fun other member =>
      flat other (List.mem_cons_of_mem _ member)).trans (opened_step (flat lexeme List.mem_cons_self))

theorem opened_spots {part before after : List Lexeme} (flat : ∀ lexeme ∈ part, lexeme.side? = none) :
    ∀ spot ∈ spots context before part after, spot.context.opened = context.opened := by
  intro spot member
  induction part generalizing context before with
  | nil => cases member
  | cons lexeme part ih =>
    rcases List.mem_cons.mp member with rfl | later
    · rfl
    · exact (ih (fun other inside => flat other (List.mem_cons_of_mem _ inside)) later).trans
        (opened_step (flat lexeme List.mem_cons_self))

/-- Without parentheses nothing comes after one. -/
theorem outside_spots {part before after : List Lexeme} (flat : ∀ lexeme ∈ part, lexeme.side? = none)
    (inside : context.outside = false) :
    ∀ spot ∈ spots context before part after, spot.context.outside = false := by
  intro spot member
  induction part generalizing context before with
  | nil => cases member
  | cons lexeme part ih =>
    obtain ⟨here, others⟩ := List.forall_mem_cons.mp flat
    have next : (context.step lexeme).outside = false := by
      simp only [Context.step, here]
      split
      · simp [inside]
      · exact inside
    rcases List.mem_cons.mp member with rfl | later
    · exact inside
    · exact ih others next later

theorem clause_of_staying {part before after : List Lexeme} (staying : ∀ lexeme ∈ part, lexeme.Staying) :
    ∀ spot ∈ spots context before part after, spot.clause = context.clause.getD "" := by
  intro spot member
  induction part generalizing context before with
  | nil => cases member
  | cons lexeme part ih =>
    have resumes : context.Resumes (context.step lexeme) := resumes_step (staying lexeme List.mem_cons_self)
    rcases List.mem_cons.mp member with rfl | later
    · rfl
    · rw [ih (fun other inside => staying other (List.mem_cons_of_mem _ inside)) later, resumes.clause]

private theorem step_closing {frame : Frame} {outer : List Frame} (closes : lexeme.side? = some .closing)
    (opened : context.opened = frame :: outer) : (context.step lexeme).clause = frame.clause ∧
      (context.step lexeme).outside = frame.outside ∧ (context.step lexeme).opened = outer := by
  simp only [Context.step, closes, opened, and_self]

/-- After a parenthesis the clause before it goes on, if what is inside opens and closes its own. -/
theorem resumes_between {first last : Lexeme} (opens : first.side? = some .opening)
    (closes : last.side? = some .closing)
    {inner : List Lexeme} (level : ∀ context : Context, (context.after inner).opened = context.opened) :
    context.Resumes (context.after (first :: (inner ++ [last]))) := by
  have inside : ((context.step first).after inner).opened =
      ⟨context.parenKind, context.clause, context.outside⟩ :: context.opened := by
    rw [level]
    simp only [Context.step, opens]
  have whole : context.after (first :: (inner ++ [last])) = ((context.step first).after inner).step last := by
    rw [Context.after, List.foldl_cons, List.foldl_append]
    rfl
  obtain ⟨clause, outside, opened⟩ := step_closing closes inside
  rw [whole]
  exact ⟨clause, outside, opened⟩

theorem resumes_level {inner : List Lexeme}
    (level : ∀ context : Context, (context.after inner).opened = context.opened) (apart : Bool) :
    context.Resumes (context.after (⟨.punctuation, "(", none, apart⟩ :: (inner ++ [closing]))) :=
  resumes_between rfl rfl level

theorem resumes_group {inner : List Lexeme} (flat : ∀ lexeme ∈ inner, lexeme.side? = none) (apart : Bool) :
    context.Resumes (context.after (⟨.punctuation, "(", none, apart⟩ :: (inner ++ [closing]))) :=
  resumes_level (fun _ => opened_after flat) apart

end QueryFacts.Proofs.Clauses

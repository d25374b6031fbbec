import QueryFacts.Proofs.WellNested

/-! Which lexemes are annotated: the parentheses balance, and no more of them are open at
one time than the limits allow. Nothing else about the lexemes matters. -/

namespace QueryFacts.Proofs.Acceptance
open Nesting Parenthesis NestingRun WellNested

variable {limits : Limits} {lexemes : List Lexeme} {count : Nat} {state : Nesting}

theorem heightAt_depth (reached : Reaches limits lexemes count state) :
    heightAt (sides lexemes) count = state.depth := by
  rw [(opened_open reached).heightAt_eq, positions, List.length_map]
  rfl

theorem depth_le (reached : Reaches limits lexemes count state) : state.depth ≤ limits.maxNestingDepth := by
  induction reached with
  | start => exact Nat.zero_le _
  | next reached found move ih =>
    cases move with
    | opening side shallow => exact shallow
    | closing side opened =>
      rw [depth, opened, List.length_cons] at ih
      exact Nat.le_of_succ_le ih
    | keyword side keyword => exact ih
    | plain side plain => exact ih

/-- Not more parentheses were closed than opened, and not more are open than the limits allow. -/
structure Within (limits : Limits) (sides : Sides) (place : Nat) : Prop where
  above : 0 ≤ heightAt sides place
  shallow : heightAt sides place ≤ limits.maxNestingDepth

theorem within_of_reaches (reached : Reaches limits lexemes count state) : Within limits (sides lexemes) count := by
  have height := heightAt_depth reached
  have bound := depth_le reached
  exact ⟨by omega, by omega⟩

theorem reaches_of_within (within : ∀ place ≤ count, Within limits (sides lexemes) place)
    (inside : count ≤ lexemes.length) :
    ∃ state, Reaches limits lexemes count state := by
  induction count with
  | zero => exact ⟨_, .start⟩
  | succ count ih =>
    obtain ⟨before, reached⟩ :=
      ih (fun place early => within place (Nat.le_succ_of_le early)) (Nat.le_of_succ_le inside)
    obtain ⟨above, shallow⟩ := within (count + 1) (Nat.le_refl _)
    have found := List.getElem?_eq_getElem inside
    have there := side_at found
    have here := heightAt_depth reached
    have next := heightAt_succ there
    cases side : lexemes[count].side? with
    | none =>
      cases keyword : lexemes[count].isKeyword with
      | true => exact ⟨_, reached.next found (.keyword side keyword)⟩
      | false => exact ⟨_, reached.next found (.plain side keyword)⟩
    | some turn =>
      rw [side] at next
      cases turn with
      | opening =>
        simp only [rise] at next
        exact ⟨_, reached.next found (.opening side (by omega))⟩
      | closing =>
        simp only [rise] at next
        -- With no parenthesis open the height would go below zero.
        cases opened : before.opened with
        | nil =>
          rw [depth, opened, List.length_nil] at here
          omega
        | cons paren outer => exact ⟨_, reached.next found (.closing side opened)⟩

theorem annotate_accepts_iff :
    (∃ sequence, annotate limits lexemes = .ok sequence) ↔
      Balanced (sides lexemes) ∧ ∀ place, heightAt (sides lexemes) place ≤ limits.maxNestingDepth := by
  have length : (sides lexemes).length = lexemes.length := List.length_map _
  constructor
  · rintro ⟨sequence, annotated⟩
    obtain ⟨final, ends, closed, -⟩ := annotate_ok_iff.mp annotated
    have stacked := opened_open ends
    rw [closed, ← length] at stacked
    refine ⟨by simpa only [List.take_length] using (show Balanced _ from stacked), ?_⟩
    intro place
    have bounded (inside : Nat) (early : inside ≤ lexemes.length) :
        heightAt (sides lexemes) inside ≤ limits.maxNestingDepth := by
      obtain ⟨middle, reached⟩ := ends.earlier early
      exact (within_of_reaches reached).shallow
    by_cases early : place ≤ lexemes.length
    · exact bounded place early
    · have past : (sides lexemes).take place = (sides lexemes).take lexemes.length := by
        rw [List.take_of_length_le (by omega), ← length, List.take_length]
      rw [heightAt, past]
      exact bounded lexemes.length (Nat.le_refl _)
  · rintro ⟨balanced, shallow⟩
    obtain ⟨final, ends⟩ :=
      reaches_of_within (fun place _ => ⟨balanced.before place, shallow place⟩) (Nat.le_refl lexemes.length)
    have height := heightAt_depth ends
    rw [← length, heightAt_length, balanced.whole] at height
    have closed : final.opened = [] := List.length_eq_zero_iff.mp (Int.ofNat_eq_zero.mp height.symm)
    exact ⟨_, annotate_ok_iff.mpr ⟨final, ends, closed, rfl⟩⟩

/-- What is between the parentheses of an annotated statement is annotated on its own. -/
theorem annotate_between (annotated : ∃ sequence, annotate limits lexemes = .ok sequence) {first last : Nat}
    (pair : Pair (sides lexemes) first last) {body : List Lexeme}
    (same : sides body = ((sides lexemes).take last).drop (first + 1)) :
    ∃ sequence, annotate limits body = .ok sequence := by
  obtain ⟨balanced, shallow⟩ := annotate_accepts_iff.mp annotated
  refine annotate_accepts_iff.mpr ⟨same ▸ pair.inner, ?_⟩
  intro place
  have inside : heightAt (sides body) place =
      heightAt (sides lexemes) (min (first + 1 + place) last) - heightAt (sides lexemes) (first + 1) := by
    rw [heightAt, same, List.take_drop, List.take_take]
    have ordered := pair.ordered
    exact height_between _ (by omega)
  have bound := shallow (min (first + 1 + place) last)
  have above : 0 ≤ heightAt (sides lexemes) (first + 1) := balanced.before (first + 1)
  omega

end QueryFacts.Proofs.Acceptance

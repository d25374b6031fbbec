import QueryFacts.Proofs.Acceptance

/-! Every outcome of reading a statement that the lexer accepts: which error there is, and at
which lexeme. The parentheses are counted from left to right; the first place at which the
count leaves its bounds decides, and only then what is still open at the end. -/

namespace QueryFacts.Proofs.Outcomes
open Nesting Parenthesis NestingRun WellNested Acceptance

/-- Why lexemes are no statement. -/
inductive Refused (limits : Limits) (lexemes : List Lexeme) : Error → Prop where
  | tooMany (many : limits.maxTokens < lexemes.length) :
      Refused limits lexemes (.tooManyTokens lexemes.length limits.maxTokens)
  /-- A parenthesis closes where none is open. -/
  | unmatched {place : Nat} (few : lexemes.length ≤ limits.maxTokens)
      (within : ∀ earlier ≤ place, Within limits (sides lexemes) earlier)
      (closes : (sides lexemes)[place]? = some (some .closing)) (level : heightAt (sides lexemes) place = 0) :
      Refused limits lexemes (.unmatchedParenthesis place)
  /-- A parenthesis opens where as many are open as the limits allow. -/
  | tooDeep {place : Nat} (few : lexemes.length ≤ limits.maxTokens)
      (within : ∀ earlier ≤ place, Within limits (sides lexemes) earlier)
      (opens : (sides lexemes)[place]? = some (some .opening))
      (full : heightAt (sides lexemes) place = limits.maxNestingDepth) :
      Refused limits lexemes (.nestingTooDeep (limits.maxNestingDepth + 1) limits.maxNestingDepth)
  /-- The last of the parentheses that open has no partner. -/
  | unclosed {place : Nat} (few : lexemes.length ≤ limits.maxTokens)
      (within : ∀ other ≤ lexemes.length, Within limits (sides lexemes) other)
      (opens : (sides lexemes)[place]? = some (some .opening)) (alone : ∀ last, ¬Pair (sides lexemes) place last)
      (last : ∀ later, place < later → (sides lexemes)[later]? = some (some .opening) →
        ∃ partner, Pair (sides lexemes) later partner) :
      Refused limits lexemes (.unclosedParenthesis place)

variable {limits : Limits} {lexemes : List Lexeme} {count place : Nat} {state : Nesting}

/-- A parenthesis that opened is still open, or has its partner. -/
theorem opened_or_paired (reached : Reaches limits lexemes count state) (before : place < count)
    (opens : (sides lexemes)[place]? = some (some .opening)) :
    place ∈ positions state.opened ∨ ∃ partner, Pair (sides lexemes) place partner := by
  induction reached with
  | start => cases before
  | @next count previous after lexeme reached found move ih =>
    have there := side_at found
    have other (same : place = count) : lexeme.side? = some .opening := by
      rw [same, there] at opens
      exact Option.some.inj opens
    rcases Nat.lt_succ_iff_lt_or_eq.mp before with earlier | here
    · rcases ih earlier with member | paired
      · cases move with
        | opening side shallow => exact .inl (List.mem_cons_of_mem _ member)
        | @closing paren outer side opened =>
          rw [side] at there
          have stacked := opened_open reached
          simp only [positions, opened, List.map_cons] at stacked member
          rcases List.mem_cons.mp member with rfl | outside
          · exact .inr ⟨count, stacked.pair there⟩
          · exact .inl outside
        | keyword side keyword => exact .inl member
        | plain side plain => exact .inl member
      · exact .inr paired
    · have side := other here
      cases move with
      | opening _ shallow =>
        rw [here, ← reached.size]
        exact .inl List.mem_cons_self
      | closing closes opened => cases side.symm.trans closes
      | keyword plain keyword => cases side.symm.trans plain
      | plain plain _ => cases side.symm.trans plain

/-- The innermost open parenthesis at the end is the last that has no partner. -/
theorem last_unpaired {paren : OpenParen} {outer : List OpenParen}
    (ends : Reaches limits lexemes lexemes.length state) (opened : state.opened = paren :: outer) :
    (sides lexemes)[paren.position]? = some (some .opening) ∧ (∀ last, ¬Pair (sides lexemes) paren.position last) ∧
      ∀ later, paren.position < later → (sides lexemes)[later]? = some (some .opening) →
        ∃ partner, Pair (sides lexemes) later partner := by
  have length : (sides lexemes).length = lexemes.length := List.length_map _
  have stacked := opened_open ends
  simp only [positions, opened, List.map_cons] at stacked
  refine ⟨stacked.2.1, ?_, ?_⟩
  · intro last pair
    have outside := stacked.unfinished List.mem_cons_self pair
    have inside := (List.getElem?_eq_some_iff.mp pair.closing).1
    omega
  · intro later after opens
    have inside := (List.getElem?_eq_some_iff.mp opens).1
    rcases opened_or_paired ends (length ▸ inside) opens with member | paired
    · simp only [positions, opened, List.map_cons] at member
      rcases List.mem_cons.mp member with rfl | further
      · exact absurd after (Nat.lt_irrefl _)
      · have greater := (List.pairwise_cons.mp stacked.decreasing).1 later further
        omega
    · exact paired

theorem within_before (reached : Reaches limits lexemes count state) :
    ∀ earlier ≤ count, Within limits (sides lexemes) earlier := by
  intro earlier before
  obtain ⟨middle, passed⟩ := reached.earlier before
  exact within_of_reaches passed

/-- The errors of the annotation are the reasons that are left when the lexemes are not too many. -/
theorem annotate_refused (few : lexemes.length ≤ limits.maxTokens) {error : Error} :
    annotate limits lexemes = .error error ↔ Refused limits lexemes error := by
  rw [annotate_error_iff]
  constructor
  · rintro (⟨place, state, lexeme, reached, found, refused⟩ | ⟨final, paren, outer, ends, opened, rfl⟩)
    · have there := side_at found
      have height := heightAt_depth reached
      have bound := depth_le reached
      rcases step_error_iff.mp refused with ⟨side, opened, rfl⟩ | ⟨side, deep, rfl⟩
      · rw [reached.size]
        rw [depth, opened] at height
        exact .unmatched few (within_before reached) (side ▸ there) height
      · have full : state.depth = limits.maxNestingDepth := Nat.le_antisymm bound deep
        rw [full] at height ⊢
        exact .tooDeep few (within_before reached) (side ▸ there) height
    · obtain ⟨opens, alone, last⟩ := last_unpaired ends opened
      exact .unclosed few (within_before ends) opens alone last
  · intro refused
    cases refused with
    | tooMany many => omega
    | @unmatched place _ within closes level =>
      obtain ⟨lexeme, found, side⟩ := exists_of_side closes
      obtain ⟨state, reached⟩ := reaches_of_within within (Nat.le_of_lt (List.getElem?_eq_some_iff.mp found).1)
      have height := heightAt_depth reached
      have opened : state.opened = [] := List.length_eq_zero_iff.mp (by rw [depth] at height; omega)
      refine .inl ⟨place, state, lexeme, reached, found, step_error_iff.mpr (.inl ⟨side, opened, ?_⟩)⟩
      rw [reached.size]
    | @tooDeep place _ within opens full =>
      obtain ⟨lexeme, found, side⟩ := exists_of_side opens
      obtain ⟨state, reached⟩ := reaches_of_within within (Nat.le_of_lt (List.getElem?_eq_some_iff.mp found).1)
      have height := heightAt_depth reached
      have depth : state.depth = limits.maxNestingDepth := by omega
      refine .inl ⟨place, state, lexeme, reached, found, step_error_iff.mpr (.inr ⟨side, depth.ge, ?_⟩)⟩
      rw [depth]
    | @unclosed place _ within opens alone last =>
      obtain ⟨final, ends⟩ := reaches_of_within within (Nat.le_refl lexemes.length)
      obtain ⟨lexeme, found, -⟩ := exists_of_side opens
      rcases opened_or_paired ends (List.getElem?_eq_some_iff.mp found).1 opens with member | ⟨partner, pair⟩
      · cases opened : final.opened with
        | nil => rw [opened] at member; cases member
        | cons paren outer =>
          refine .inr ⟨final, paren, outer, ends, opened, ?_⟩
          -- Of two that are last without a partner neither is before the other.
          obtain ⟨also, lonely, final⟩ := last_unpaired ends opened
          rcases Nat.lt_trichotomy place paren.position with earlier | rfl | later
          · obtain ⟨partner, pair⟩ := last _ earlier also
            exact absurd pair (lonely partner)
          · rfl
          · obtain ⟨partner, pair⟩ := final _ later opens
            exact absurd pair (alone partner)
      · exact absurd pair (alone partner)

theorem annotate_writes {sequence : TokenSequence} (annotated : annotate limits lexemes = .ok sequence) :
    sequence.tokens.size = lexemes.length ∧
      ∀ (index : Nat) (token : Token) (lexeme : Lexeme), sequence.tokens[index]? = some token →
        lexemes[index]? = some lexeme → token.Writes lexeme := by
  obtain ⟨final, ends, -, rfl⟩ := annotate_ok_iff.mp annotated
  refine ⟨ends.size, ?_⟩
  intro index token lexeme added found
  obtain ⟨other, before, -, there, -, -, -, same⟩ := ends.token added
  obtain rfl := Option.some.inj (there.symm.trans found)
  exact (addedToken_writes before other).ofAlone same

theorem annotate_wider {sequence : TokenSequence} (annotated : annotate limits lexemes = .ok sequence)
    {limits' : Limits} (deeper : limits.maxNestingDepth ≤ limits'.maxNestingDepth) :
    annotate limits' lexemes = .ok sequence := by
  obtain ⟨final, ends, closed, rfl⟩ := annotate_ok_iff.mp annotated
  exact annotate_ok_iff.mpr ⟨final, ends.wider deeper, closed, rfl⟩

/-- The lexemes alone decide whether a statement is read, which error there is otherwise and
where. When it is read it has one token for each lexeme, and wider limits change nothing. -/
theorem tokenize_outcome {text : List Char} (read : Lexeme.ofText text = .ok lexemes) :
    (∀ error, tokenize limits text = .error error ↔ Refused limits lexemes error) ∧
      ((∃ sequence, tokenize limits text = .ok sequence) ↔
        lexemes.length ≤ limits.maxTokens ∧ Balanced (sides lexemes) ∧
          ∀ place, heightAt (sides lexemes) place ≤ limits.maxNestingDepth) ∧
      ∀ sequence, tokenize limits text = .ok sequence →
        sequence.tokens.size = lexemes.length ∧
          (∀ (index : Nat) (token : Token) (lexeme : Lexeme), sequence.tokens[index]? = some token →
            lexemes[index]? = some lexeme → token.Writes lexeme) ∧
          ∀ limits' : Limits, limits.maxTokens ≤ limits'.maxTokens →
            limits.maxNestingDepth ≤ limits'.maxNestingDepth → tokenize limits' text = .ok sequence := by
  have accepts {limits' : Limits} {sequence : TokenSequence} :
      tokenize limits' text = .ok sequence ↔ lexemes.length ≤ limits'.maxTokens ∧
          annotate limits' lexemes = .ok sequence := by
    simp only [tokenize_ok_iff, read, Except.ok.injEq, exists_eq_left']
  refine ⟨?_, ?_, ?_⟩
  · intro error
    rcases Nat.lt_or_ge limits.maxTokens lexemes.length with many | few
    · have refused : tokenize limits text = .error (.tooManyTokens lexemes.length limits.maxTokens) := by
        simp only [tokenize, read, gt_iff_lt, if_pos many]
      rw [refused]
      constructor
      · intro same
        cases same
        exact .tooMany many
      · intro reason
        cases reason with
        | tooMany => rfl
        | _ few => omega
    · have annotated : tokenize limits text = annotate limits lexemes := by
        simp only [tokenize, read, gt_iff_lt, if_neg (Nat.not_lt.mpr few)]
      rw [annotated, annotate_refused few]
  · simp only [accepts, exists_and_left, annotate_accepts_iff]
  · intro sequence tokenized
    obtain ⟨few, annotated⟩ := accepts.mp tokenized
    obtain ⟨size, writes⟩ := annotate_writes annotated
    refine ⟨size, writes, ?_⟩
    intro limits' more deeper
    exact accepts.mpr ⟨Nat.le_trans few more, annotate_wider annotated deeper⟩

/-- Two parentheses open in `SELECT ((a)`, and only the first is still open at the end. -/
theorem tokenize_outcome_unclosed :
    tokenize {} "SELECT ((a)".toList = .error (.unclosedParenthesis 1) ∧
      ∃ lexemes, Lexeme.ofText "SELECT ((a)".toList = .ok lexemes ∧
        (tokenize {} "SELECT ((a)".toList = .error (.unclosedParenthesis 1) ↔
          Refused {} lexemes (.unclosedParenthesis 1)) := by
  have read : Lexeme.ofText "SELECT ((a)".toList = .ok [⟨.keyword, "SELECT", none, true⟩,
      ⟨.punctuation, "(", none, true⟩, ⟨.punctuation, "(", none, false⟩, ⟨.name, "a", none, false⟩,
      ⟨.punctuation, ")", none, false⟩] := by decide +kernel
  refine ⟨by decide +kernel, _, read, ?_⟩
  exact (tokenize_outcome read).1 _

end QueryFacts.Proofs.Outcomes

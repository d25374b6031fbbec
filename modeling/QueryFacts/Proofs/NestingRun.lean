import QueryFacts.Nesting
import QueryFacts.Proofs.Parenthesis

/-! The annotation of a statement as a run: what one step can do, the states that are
reached, and what later steps leave as it is. -/

namespace QueryFacts

/-- What a lexeme does to the nesting, by its text. -/
def Lexeme.side? (lexeme : Lexeme) : Option ParenSide :=
  if lexeme.isPunctuation "(" then some .opening else if lexeme.isPunctuation ")" then some .closing else none

def Token.side? (token : Token) : Option ParenSide :=
  if token.isPunctuation "(" then some .opening else if token.isPunctuation ")" then some .closing else none

def Lexeme.normalized (lexeme : Lexeme) : String :=
  match lexeme.kind, lexeme.quote with
  | .keyword, none => Keyword.normalForm lexeme.value
  | .name, none => Keyword.normalForm lexeme.value
  | _, _ => lexeme.value

/-- What a token has from its lexeme alone. -/
structure Token.Writes (token : Token) (lexeme : Lexeme) : Prop where
  value : token.value = lexeme.value
  normalized : token.normalized = lexeme.normalized
  kind : token.kind = lexeme.kind
  quote : token.quote = lexeme.quote
  spaceBefore : token.spaceBefore = lexeme.spaceBefore

/-- A token without its partner, which is the one thing that changes later. -/
def Token.alone (token : Token) : Token := { token with matching := none }

theorem Token.Writes.ofAlone {token other : Token} {lexeme : Lexeme} (writes : other.Writes lexeme)
    (same : token.alone = other.alone) : token.Writes lexeme := by
  obtain ⟨value, normalized, kind, quote, space⟩ := writes
  exact ⟨(congrArg Token.value same).trans value, (congrArg Token.normalized same).trans normalized,
    (congrArg Token.kind same).trans kind, (congrArg Token.quote same).trans quote,
    (congrArg Token.spaceBefore same).trans space⟩

theorem Token.Writes.side? {token : Token} {lexeme : Lexeme} (writes : token.Writes lexeme) :
    token.side? = lexeme.side? := by
  unfold Token.side? Lexeme.side? Token.isPunctuation Lexeme.isPunctuation
  rw [writes.kind, writes.value]

end QueryFacts

namespace QueryFacts.Proofs.NestingRun
open Nesting Parenthesis

theorem side?_eq_opening {lexeme : Lexeme} : lexeme.side? = some .opening ↔ lexeme.isPunctuation "(" = true := by
  unfold Lexeme.side?
  by_cases opens : lexeme.isPunctuation "(" = true <;> by_cases closes : lexeme.isPunctuation ")" = true <;>
    simp [opens, closes]

theorem side?_eq_closing {lexeme : Lexeme} : lexeme.side? = some .closing ↔ lexeme.isPunctuation ")" = true := by
  have apart : lexeme.isPunctuation ")" = true → lexeme.isPunctuation "(" = false := by
    simp only [Lexeme.isPunctuation, Bool.and_eq_true, beq_iff_eq]
    intro ⟨_, same⟩
    rw [same, show ((")" : String) == "(") = false by decide, Bool.and_false]
  unfold Lexeme.side?
  by_cases closes : lexeme.isPunctuation ")" = true
  · simp [closes, apart closes]
  · by_cases opens : lexeme.isPunctuation "(" = true <;> simp [opens, closes]

theorem side?_eq_none {lexeme : Lexeme} :
    lexeme.side? = none ↔ lexeme.isPunctuation "(" ≠ true ∧ lexeme.isPunctuation ")" ≠ true := by
  unfold Lexeme.side?
  by_cases opens : lexeme.isPunctuation "(" = true <;> by_cases closes : lexeme.isPunctuation ")" = true <;>
    simp [opens, closes]

theorem side?_of_kind {lexeme : Lexeme} (other : lexeme.kind ≠ .punctuation) : lexeme.side? = none := by
  simp [Lexeme.side?, Lexeme.isPunctuation, other]

theorem side?_of_keyword {lexeme : Lexeme} (keyword : lexeme.isKeyword = true) : lexeme.side? = none :=
  side?_of_kind (by rw [eq_of_beq keyword]; decide)

def sides (lexemes : List Lexeme) : Sides := lexemes.map Lexeme.side?

theorem side_at {lexemes : List Lexeme} {place : Nat} {lexeme : Lexeme} (found : lexemes[place]? = some lexeme) :
    (sides lexemes)[place]? = some lexeme.side? := by
  rw [sides, List.getElem?_map, found]
  rfl

theorem exists_of_side {lexemes : List Lexeme} {place : Nat} {side : Option ParenSide}
    (there : (sides lexemes)[place]? = some side) : ∃ lexeme, lexemes[place]? = some lexeme ∧ lexeme.side? = side := by
  rwa [sides, List.getElem?_map, Option.map_eq_some_iff] at there

def openingToken (state : Nesting) (lexeme : Lexeme) : Token :=
  { state.tokenOf lexeme with
    paren := some ⟨state.parenKind, .opening⟩
    level := (if state.parenKind = .subquery then 1 else 0) + state.level }

def closingToken (state : Nesting) (lexeme : Lexeme) (paren : OpenParen) (outer : List OpenParen) : Token :=
  { state.tokenOf lexeme with
    paren := some ⟨paren.kind, .closing⟩
    matching := some paren.position
    enclosing := outer.head?.map (·.position) }

/-- What a step can do. -/
inductive Move (limits : Limits) (state : Nesting) (lexeme : Lexeme) : Nesting → Prop where
  | opening (side : lexeme.side? = some .opening) (shallow : state.depth < limits.maxNestingDepth) :
      Move limits state lexeme { state with
        tokens := state.tokens.push (openingToken state lexeme)
        opened := ⟨state.tokens.size, state.parenKind, state.lastKeyword⟩ :: state.opened
        awaitsColumns := state.awaitsColumns && !(state.parenKind == ParenKind.createTableColumns) }
  | closing {paren : OpenParen} {outer : List OpenParen} (side : lexeme.side? = some .closing)
      (opened : state.opened = paren :: outer) :
      Move limits state lexeme { state with
        tokens := (state.tokens.modify paren.position fun opening =>
          { opening with matching := some state.tokens.size }).push (closingToken state lexeme paren outer)
        opened := outer
        lastKeyword := paren.lastKeyword
        headers := state.headers.dropWhile (outer.length < ·) }
  | keyword (side : lexeme.side? = none) (keyword : lexeme.isKeyword = true) :
      Move limits state lexeme (state.passKeyword (state.tokenOf lexeme))
  | plain (side : lexeme.side? = none) (plain : lexeme.isKeyword = false) :
      Move limits state lexeme { state with tokens := state.tokens.push (state.tokenOf lexeme) }

private theorem openParen_eq (limits : Limits) (state : Nesting) (lexeme : Lexeme) :
    openParen limits state (state.tokenOf lexeme) =
      if state.depth < limits.maxNestingDepth then .ok { state with
        tokens := state.tokens.push (openingToken state lexeme)
        opened := ⟨state.tokens.size, state.parenKind, state.lastKeyword⟩ :: state.opened
        awaitsColumns := state.awaitsColumns && !(state.parenKind == ParenKind.createTableColumns) }
      else .error (.nestingTooDeep (state.depth + 1) limits.maxNestingDepth) := by
  have levels : (⟨state.tokens.size, state.parenKind, state.lastKeyword⟩ :: state.opened).countP
      (fun paren : OpenParen => paren.kind = .subquery) =
        (if state.parenKind = .subquery then 1 else 0) + state.level := by
    rw [List.countP_cons, Nat.add_comm]
    simp only [Nesting.level, decide_eq_true_eq]
  simp only [openParen, List.length_cons, openingToken, Nesting.level] at levels ⊢
  by_cases shallow : state.depth < limits.maxNestingDepth
  · have inside :
        ¬state.opened.length + 1 > limits.maxNestingDepth := by simpa only [depth] using Nat.not_lt.mpr shallow
    rw [if_pos shallow, if_neg inside, ← levels]
    rfl
  · have outside : state.opened.length + 1 > limits.maxNestingDepth := by
      simp only [depth] at shallow
      omega
    rw [if_neg shallow, if_pos outside]
    rfl

theorem step_ok_iff {limits : Limits} {state after : Nesting} {lexeme : Lexeme} :
    step limits state lexeme = .ok after ↔ Move limits state lexeme after := by
  unfold step
  constructor
  · intro moved
    split at moved
    next opens =>
      rw [openParen_eq] at moved
      split at moved
      next shallow => cases moved; exact .opening (side?_eq_opening.mpr opens) shallow
      next => cases moved
    next opens =>
      split at moved
      next closes =>
        unfold closeParen at moved
        split at moved
        next => cases moved
        next paren outer opened => cases moved; exact .closing (side?_eq_closing.mpr closes) opened
      next closes =>
        have side := side?_eq_none.mpr ⟨opens, closes⟩
        split at moved
        next keyword => cases moved; exact .keyword side keyword
        next plain => cases moved; exact .plain side (by simpa using plain)
  · intro move
    cases move with
    | opening side shallow => rw [if_pos (side?_eq_opening.mp side), openParen_eq, if_pos shallow]
    | closing side opened =>
      have other : lexeme.isPunctuation "(" ≠ true := fun opens => by
        cases (side?_eq_opening.mpr opens).symm.trans side
      rw [if_neg other, if_pos (side?_eq_closing.mp side)]
      simp only [closeParen, opened]
      rfl
    | keyword side keyword =>
      obtain ⟨opens, closes⟩ := side?_eq_none.mp side
      rw [if_neg opens, if_neg closes, if_pos keyword]
    | plain side plain =>
      obtain ⟨opens, closes⟩ := side?_eq_none.mp side
      rw [if_neg opens, if_neg closes, plain, if_neg Bool.false_ne_true]

/-- Only a parenthesis is refused: one too many that closes, or one too many that is open. -/
theorem step_error_iff {limits : Limits} {state : Nesting} {lexeme : Lexeme} {error : Error} :
    step limits state lexeme = .error error ↔
      lexeme.side? = some .closing ∧ state.opened = [] ∧ error = .unmatchedParenthesis state.tokens.size ∨
        lexeme.side? = some .opening ∧ limits.maxNestingDepth ≤ state.depth ∧
          error = .nestingTooDeep (state.depth + 1) limits.maxNestingDepth := by
  unfold step
  constructor
  · intro refused
    split at refused
    next opens =>
      rw [openParen_eq] at refused
      split at refused
      next => cases refused
      next deep => cases refused; exact .inr ⟨side?_eq_opening.mpr opens, Nat.le_of_not_lt deep, rfl⟩
    next =>
      split at refused
      next closes =>
        unfold closeParen at refused
        split at refused
        next opened => cases refused; exact .inl ⟨side?_eq_closing.mpr closes, opened, rfl⟩
        next => cases refused
      next => split at refused <;> cases refused
  · rintro (⟨side, opened, rfl⟩ | ⟨side, deep, rfl⟩)
    · have other : lexeme.isPunctuation "(" ≠ true := fun opens => by
        cases (side?_eq_opening.mpr opens).symm.trans side
      rw [if_neg other, if_pos (side?_eq_closing.mp side)]
      simp only [closeParen, opened]
      rfl
    · rw [if_pos (side?_eq_opening.mp side), openParen_eq, if_neg (Nat.not_lt.mpr deep)]

def addedToken (state : Nesting) (lexeme : Lexeme) : Token :=
  match lexeme.side?, state.opened with
  | some .opening, _ => openingToken state lexeme
  | some .closing, paren :: outer => closingToken state lexeme paren outer
  | _, _ => state.tokenOf lexeme

theorem addedToken_writes (state : Nesting) (lexeme : Lexeme) : (addedToken state lexeme).Writes lexeme := by
  unfold addedToken
  split <;> exact ⟨rfl, rfl, rfl, rfl, rfl⟩

theorem addedToken_position (state : Nesting) (lexeme : Lexeme) :
    (addedToken state lexeme).position = state.tokens.size := by
  unfold addedToken
  split <;> rfl

namespace Move
variable {limits : Limits} {state after : Nesting} {lexeme : Lexeme}

theorem size (move : Move limits state lexeme after) : after.tokens.size = state.tokens.size + 1 := by
  cases move <;> simp [passKeyword]

theorem added (move : Move limits state lexeme after) :
    after.tokens[state.tokens.size]? = some (addedToken state lexeme) := by
  cases move with
  | opening side shallow => simp [addedToken, side]
  | closing side opened => simp only [addedToken, side, opened, Array.getElem?_push, Array.size_modify, if_true]
  | keyword side keyword => simp [addedToken, side, passKeyword]
  | plain side plain => simp [addedToken, side]

theorem kept (move : Move limits state lexeme after) {index : Nat} (old : index < state.tokens.size) :
    after.tokens[index]?.map Token.alone = state.tokens[index]?.map Token.alone := by
  have other : index ≠ state.tokens.size := Nat.ne_of_lt old
  cases move with
  | opening side shallow => simp [Array.getElem?_push, other]
  | closing side opened =>
    simp only [Array.getElem?_push, Array.size_modify, other, if_false, Array.getElem?_modify]
    split
    · rw [Option.map_map]; rfl
    · rfl
  | keyword side keyword => simp [passKeyword, Array.getElem?_push, other]
  | plain side plain => simp [Array.getElem?_push, other]

theorem wider (move : Move limits state lexeme after) {limits' : Limits}
    (deeper : limits.maxNestingDepth ≤ limits'.maxNestingDepth) : Move limits' state lexeme after := by
  cases move with
  | opening side shallow => exact .opening side (Nat.lt_of_lt_of_le shallow deeper)
  | closing side opened => exact .closing side opened
  | keyword side keyword => exact .keyword side keyword
  | plain side plain => exact .plain side plain

end Move

/-- The state after the first `count` lexemes. -/
inductive Reaches (limits : Limits) (lexemes : List Lexeme) : Nat → Nesting → Prop where
  | start : Reaches limits lexemes 0 (Nesting.start lexemes)
  | next {count : Nat} {before after : Nesting} {lexeme : Lexeme} (reached : Reaches limits lexemes count before)
      (found : lexemes[count]? = some lexeme) (move : Move limits before lexeme after) :
      Reaches limits lexemes (count + 1) after

variable {limits : Limits} {lexemes : List Lexeme}

theorem reaches_iff {count : Nat} {state : Nesting} :
    Reaches limits lexemes count state ↔
      count ≤ lexemes.length ∧ (lexemes.take count).foldlM (step limits) (Nesting.start lexemes) = .ok state := by
  constructor
  · intro reached
    induction reached with
    | start => exact ⟨Nat.zero_le _, rfl⟩
    | @next count before after lexeme reached found move ih =>
      refine ⟨(List.getElem?_eq_some_iff.mp found).1, ?_⟩
      rw [List.take_add_one, found, List.foldlM_append, ih.2]
      exact (bind_pure _).trans (step_ok_iff.mpr move)
  · intro ⟨inside, ran⟩
    induction count generalizing state with
    | zero => cases ran; exact .start
    | succ count ih =>
      have found := List.getElem?_eq_getElem inside
      rw [List.take_add_one, found, List.foldlM_append] at ran
      cases before : (lexemes.take count).foldlM (step limits) (Nesting.start lexemes) with
      | error error => rw [before] at ran; cases ran
      | ok middle =>
        rw [before] at ran
        have moved : step limits middle lexemes[count] = .ok state := (bind_pure _).symm.trans ran
        exact .next (ih (Nat.le_of_lt inside) before) found (step_ok_iff.mp moved)

theorem whole_reached {final : Nesting} :
    Reaches limits lexemes lexemes.length final ↔
      lexemes.foldlM (step limits) (Nesting.start lexemes) = .ok final := by
  rw [reaches_iff, List.take_length]
  exact and_iff_right (Nat.le_refl _)

/-- A statement is annotated when all its lexemes are passed and no parenthesis is open. -/
theorem annotate_ok_iff {sequence : TokenSequence} :
    annotate limits lexemes = .ok sequence ↔
      ∃ final, Reaches limits lexemes lexemes.length final ∧ final.opened = [] ∧ sequence = ⟨final.tokens⟩ := by
  unfold annotate
  constructor
  · intro ran
    cases reached : lexemes.foldlM (step limits) (Nesting.start lexemes) with
    | error error => rw [reached] at ran; cases ran
    | ok final =>
      rw [reached] at ran
      change final.finish = .ok sequence at ran
      unfold finish at ran
      split at ran
      next closed => cases ran; exact ⟨final, whole_reached.mpr reached, closed, rfl⟩
      next => cases ran
  · rintro ⟨final, reached, closed, rfl⟩
    rw [whole_reached.mp reached]
    change final.finish = _
    simp only [finish, closed]

/-- A run stops at the first step that is refused. -/
theorem run_error_iff {count : Nat} {error : Error} (inside : count ≤ lexemes.length) :
    (lexemes.take count).foldlM (step limits) (Nesting.start lexemes) = .error error ↔
      ∃ place < count, ∃ state lexeme, Reaches limits lexemes place state ∧ lexemes[place]? = some lexeme ∧
        step limits state lexeme = .error error := by
  induction count with
  | zero =>
    constructor
    · intro ran; cases ran
    · rintro ⟨place, before, -⟩; cases before
  | succ count ih =>
    have found := List.getElem?_eq_getElem inside
    have earlier := ih (Nat.le_of_succ_le inside)
    rw [List.take_add_one, found, List.foldlM_append]
    cases ran : (lexemes.take count).foldlM (step limits) (Nesting.start lexemes) with
    | error first =>
      change Except.error first = Except.error error ↔ _
      rw [ran] at earlier
      rw [earlier]
      constructor
      · rintro ⟨place, before, refused⟩
        exact ⟨place, Nat.lt_succ_of_lt before, refused⟩
      · rintro ⟨place, before, state, lexeme, reached, refused⟩
        -- The place is not `count`, which the run does not reach.
        rcases Nat.lt_succ_iff_lt_or_eq.mp before with before | rfl
        · exact ⟨place, before, state, lexeme, reached, refused⟩
        · cases ran.symm.trans (reaches_iff.mp reached).2
    | ok state =>
      have reached : Reaches limits lexemes count state := reaches_iff.mpr ⟨Nat.le_of_succ_le inside, ran⟩
      change (step limits state lexemes[count] >>= pure) = _ ↔ _
      rw [bind_pure]
      constructor
      · intro refused
        exact ⟨count, Nat.lt_succ_self count, state, _, reached, found, refused⟩
      · rintro ⟨place, before, other, lexeme, also, there, refused⟩
        rcases Nat.lt_succ_iff_lt_or_eq.mp before with before | rfl
        · have stopped := earlier.mpr ⟨place, before, other, lexeme, also, there, refused⟩
          cases ran.symm.trans stopped
        · obtain rfl := Option.some.inj (found.symm.trans there)
          obtain rfl := Except.ok.inj (ran.symm.trans (reaches_iff.mp also).2)
          exact refused

/-- Lexemes are not annotated when a step is refused, or when a parenthesis is open after the last. -/
theorem annotate_error_iff {error : Error} :
    annotate limits lexemes = .error error ↔
      (∃ place state lexeme, Reaches limits lexemes place state ∧ lexemes[place]? = some lexeme ∧
        step limits state lexeme = .error error) ∨
      ∃ final paren outer, Reaches limits lexemes lexemes.length final ∧ final.opened = paren :: outer ∧
        error = .unclosedParenthesis paren.position := by
  have stops : lexemes.foldlM (step limits) (Nesting.start lexemes) = .error error ↔
      ∃ place < lexemes.length, ∃ state lexeme, Reaches limits lexemes place state ∧ lexemes[place]? = some lexeme ∧
        step limits state lexeme = .error error := by
    rw [← run_error_iff (Nat.le_refl _), List.take_length]
  unfold annotate
  constructor
  · intro ran
    cases reached : lexemes.foldlM (step limits) (Nesting.start lexemes) with
    | error first =>
      rw [reached] at ran
      cases ran
      obtain ⟨place, -, refused⟩ := stops.mp reached
      exact .inl ⟨place, refused⟩
    | ok final =>
      rw [reached] at ran
      change final.finish = .error error at ran
      unfold finish at ran
      split at ran
      next => cases ran
      next paren outer opened => cases ran; exact .inr ⟨final, paren, outer, whole_reached.mpr reached, opened, rfl⟩
  · rintro (⟨place, state, lexeme, reached, found, refused⟩ | ⟨final, paren, outer, reached, opened, rfl⟩)
    · rw [stops.mpr ⟨place, (List.getElem?_eq_some_iff.mp found).1, state, lexeme, reached, found, refused⟩]
      rfl
    · rw [whole_reached.mp reached]
      change final.finish = _
      simp only [finish, opened]

theorem tokenize_ok_iff {text : List Char} {sequence : TokenSequence} :
    tokenize limits text = .ok sequence ↔ ∃ lexemes, Lexeme.ofText text = .ok lexemes ∧
      lexemes.length ≤ limits.maxTokens ∧ annotate limits lexemes = .ok sequence := by
  unfold tokenize
  cases Lexeme.ofText text with
  | error stop => simp
  | ok lexemes =>
    simp only [Except.ok.injEq, exists_eq_left']
    split
    next many => simp [Nat.not_le.mpr many]
    next few => simp [Nat.le_of_not_gt few]

namespace Reaches
variable {count : Nat} {state : Nesting}

theorem count_le (reached : Reaches limits lexemes count state) : count ≤ lexemes.length := (reaches_iff.mp reached).1

theorem unique (reached : Reaches limits lexemes count state) {other : Nesting}
    (also : Reaches limits lexemes count other) : state = other :=
  Except.ok.inj ((reaches_iff.mp reached).2.symm.trans (reaches_iff.mp also).2)

theorem earlier (reached : Reaches limits lexemes count state) {place : Nat} (before : place ≤ count) :
    ∃ middle, Reaches limits lexemes place middle := by
  induction reached with
  | start =>
    obtain rfl := Nat.le_zero.mp before
    exact ⟨_, .start⟩
  | @next count previous after lexeme reached found move ih =>
    by_cases last : place = count + 1
    · subst place; exact ⟨after, .next reached found move⟩
    · exact ih (by omega)

theorem onward (reached : Reaches limits lexemes count state) {later : Nat} {final : Nesting}
    (ends : Reaches limits lexemes later final) (before : count < later) :
    ∃ lexeme after, lexemes[count]? = some lexeme ∧ Move limits state lexeme after ∧
      Reaches limits lexemes (count + 1) after := by
  obtain ⟨after, next⟩ := ends.earlier before
  cases next with
  | @next _ middle _ lexeme earlier found move =>
    obtain rfl := reached.unique earlier
    exact ⟨lexeme, after, found, move, .next earlier found move⟩

/-- Wider limits refuse no step that was made. -/
theorem wider (reached : Reaches limits lexemes count state) {limits' : Limits}
    (deeper : limits.maxNestingDepth ≤ limits'.maxNestingDepth) : Reaches limits' lexemes count state := by
  induction reached with
  | start => exact .start
  | next reached found move ih => exact .next ih found (move.wider deeper)

theorem size (reached : Reaches limits lexemes count state) : state.tokens.size = count := by
  induction reached with
  | start => rfl
  | next reached found move ih => rw [move.size, ih]

/-- Later steps change nothing in a token but its partner. -/
theorem kept (reached : Reaches limits lexemes count state) {later : Nat} {final : Nesting}
    (ends : Reaches limits lexemes later final) (before : count ≤ later) {index : Nat} (old : index < count) :
    final.tokens[index]?.map Token.alone = state.tokens[index]?.map Token.alone := by
  induction ends with
  | start => omega
  | @next place previous after lexeme earlier found move ih =>
    by_cases last : count = place + 1
    · subst last
      rw [reached.unique (.next earlier found move)]
    · rw [move.kept (by rw [earlier.size]; omega)]
      exact ih (by omega)

/-- A token is what one step added for one lexeme. -/
theorem token (reached : Reaches limits lexemes count state) {index : Nat} {token : Token}
    (found : state.tokens[index]? = some token) :
    ∃ lexeme before after, lexemes[index]? = some lexeme ∧ Reaches limits lexemes index before ∧
      Move limits before lexeme after ∧ Reaches limits lexemes (index + 1) after ∧
      token.alone = (addedToken before lexeme).alone := by
  have inside : index < count := by
    have := (Array.getElem?_eq_some_iff.mp found).1
    rwa [reached.size] at this
  obtain ⟨after, next⟩ := reached.earlier inside
  cases next with
  | @next _ before _ lexeme earlier there move =>
    refine ⟨lexeme, before, after, there, earlier, move, .next earlier there move, ?_⟩
    have same := (Reaches.next earlier there move).kept reached inside (Nat.lt_succ_self index)
    have last := move.added
    rw [earlier.size] at last
    rw [found, last] at same
    exact Option.some.inj same

/-- What a list of the tokens says of their texts, a list of the lexemes says. -/
theorem map_tokens {α : Type} {final : Nesting} (ends : Reaches limits lexemes lexemes.length final)
    (ofToken : Token → α) (ofLexeme : Lexeme → α)
    (same : ∀ token lexeme, token.Writes lexeme → ofToken token = ofLexeme lexeme) :
    final.tokens.toList.map ofToken = lexemes.map ofLexeme := by
  apply List.ext_getElem?
  intro index
  simp only [List.getElem?_map, Array.getElem?_toList]
  cases found : final.tokens[index]? with
  | none =>
    have outside : lexemes[index]? = none := by
      rw [List.getElem?_eq_none_iff, ← ends.size]
      exact Array.getElem?_eq_none_iff.mp found
    rw [outside]
    rfl
  | some token =>
    obtain ⟨lexeme, before, after, there, -, -, -, alone⟩ := ends.token found
    rw [there, Option.map_some, Option.map_some, same token lexeme ((addedToken_writes before lexeme).ofAlone alone)]

end Reaches

end QueryFacts.Proofs.NestingRun

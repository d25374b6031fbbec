import QueryFacts.Proofs.WellNested

/-! The last keyword of a token, said by searching instead of by saving and restoring:
of the keywords before the token that no finished pair hides, the nearest. -/

namespace QueryFacts
open Proofs

def Token.significant? (token : Token) : Option String :=
  if token.isKeyword && !Keyword.isInsignificant token.normalized then some token.normalized else none

/-- The significant keyword at each place of a sequence. -/
def TokenSequence.words (sequence : TokenSequence) : List (Option String) :=
  sequence.tokens.toList.map Token.significant?

end QueryFacts

namespace QueryFacts.Proofs.SignificantKeyword
open Nesting Parenthesis NestingRun WellNested

abbrev Words := List (Option String)

/-- A significant keyword before a place that is in no pair closed before the place. -/
structure Visible (sides : Sides) (words : Words) (place keyword : Nat) (word : String) : Prop where
  before : keyword < place
  found : words[keyword]? = some (some word)
  outside : ∀ first last, Pair sides first last → ¬(first < keyword ∧ keyword < last ∧ last < place)

def IsLast (sides : Sides) (words : Words) (place : Nat) : Option KeywordMark → Prop
  | none => ∀ keyword word, ¬Visible sides words place keyword word
  | some mark => Visible sides words place mark.position mark.word ∧
      ∀ keyword word, Visible sides words place keyword word → keyword ≤ mark.position

section
variable {sides : Sides} {words : Words} {place : Nat}

theorem IsLast.unique {mark other : Option KeywordMark} (last : IsLast sides words place mark)
    (also : IsLast sides words place other) : mark = other := by
  cases mark with
  | none =>
    cases other with
    | none => rfl
    | some other => exact absurd also.1 (last _ _)
  | some mark =>
    cases other with
    | none => exact absurd last.1 (also _ _)
    | some other =>
      have position := Nat.le_antisymm (also.2 _ _ last.1) (last.2 _ _ also.1)
      have word := last.1.found.symm.trans (position ▸ also.1.found)
      obtain ⟨word, position⟩ := mark
      simp_all

private theorem IsLast.move {other : Nat} {mark : Option KeywordMark} (last : IsLast sides words place mark)
    (same : ∀ keyword word, Visible sides words other keyword word ↔ Visible sides words place keyword word) :
    IsLast sides words other mark := by
  cases mark with
  | none => exact fun keyword word seen => last keyword word ((same keyword word).mp seen)
  | some mark =>
    exact ⟨(same _ _).mpr last.1, fun keyword word seen => last.2 keyword word ((same keyword word).mp seen)⟩

theorem IsLast.start (sides : Sides) (words : Words) : IsLast sides words 0 none :=
  fun _ _ seen => absurd seen.before (Nat.not_lt_zero _)

theorem IsLast.passes {mark : Option KeywordMark} (last : IsLast sides words place mark)
    (silent : words[place]? = some none) (open_ : sides[place]? ≠ some (some .closing)) :
    IsLast sides words (place + 1) mark := by
  apply last.move
  intro keyword word
  constructor
  · intro ⟨before, found, outside⟩
    have different : keyword ≠ place := by
      rintro rfl
      cases found.symm.trans silent
    exact ⟨by omega, found, fun first last pair inside => outside first last pair ⟨inside.1, inside.2.1, by omega⟩⟩
  · intro ⟨before, found, outside⟩
    refine ⟨by omega, found, ?_⟩
    intro first last pair ⟨after, inside, closed⟩
    have different : last ≠ place := fun same => open_ (same ▸ pair.closing)
    exact outside first last pair ⟨after, inside, by omega⟩

theorem IsLast.speaks {word : String} (found : words[place]? = some (some word)) :
    IsLast sides words (place + 1) (some ⟨word, place⟩) := by
  refine ⟨⟨Nat.lt_succ_self _, found, ?_⟩, fun keyword word seen => Nat.le_of_lt_succ seen.before⟩
  intro first last pair ⟨after, inside, closed⟩
  change place < last at inside
  omega

/-- What a pair interrupted goes on after it. -/
theorem IsLast.resumes {first : Nat} {mark : Option KeywordMark} (last : IsLast sides words first mark)
    (pair : Pair sides first place) (opening : words[first]? = some none) (closing : words[place]? = some none) :
    IsLast sides words (place + 1) mark := by
  have ordered := pair.ordered
  apply last.move
  intro keyword word
  constructor
  · intro ⟨before, found, outside⟩
    have notClosing : keyword ≠ place := by
      rintro rfl
      cases found.symm.trans closing
    have notOpening : keyword ≠ first := by
      rintro rfl
      cases found.symm.trans opening
    have notInside := outside first place pair
    refine ⟨by omega, found, ?_⟩
    intro other last also ⟨after, inside, closed⟩
    exact outside other last also ⟨after, inside, by omega⟩
  · intro ⟨before, found, outside⟩
    refine ⟨by omega, found, ?_⟩
    intro other last also ⟨after, inside, closed⟩
    by_cases early : last < first
    · exact outside other last also ⟨after, inside, early⟩
    · have different := pair.opening_ne_closing also
      have within := also.nested pair (by omega) (by omega)
      omega

end

variable {limits : Limits} {lexemes : List Lexeme} {count : Nat} {state : Nesting}

def significant? (lexeme : Lexeme) : Option String :=
  if lexeme.isKeyword && !Keyword.isInsignificant lexeme.normalized then some lexeme.normalized else none

def words (lexemes : List Lexeme) : Words := lexemes.map significant?

private theorem word_at {place : Nat} {lexeme : Lexeme} (found : lexemes[place]? = some lexeme) :
    (words lexemes)[place]? = some (significant? lexeme) := by
  rw [words, List.getElem?_map, found]
  rfl

private theorem significant?_parenthesis {lexeme : Lexeme} (parenthesis : lexeme.side? ≠ none) :
    significant? lexeme = none := by
  have kind : lexeme.kind = .punctuation := by
    rcases side : lexeme.side? with _ | _ | _
    · exact absurd side parenthesis
    · have opens := side?_eq_opening.mp side
      simp only [Lexeme.isPunctuation, Bool.and_eq_true, beq_iff_eq] at opens
      exact opens.1
    · have closes := side?_eq_closing.mp side
      simp only [Lexeme.isPunctuation, Bool.and_eq_true, beq_iff_eq] at closes
      exact closes.1
  simp [significant?, Lexeme.isKeyword, kind]

private theorem word_parenthesis {place : Nat} {side : ParenSide}
    (found : (sides lexemes)[place]? = some (some side)) : (words lexemes)[place]? = some none := by
  rw [sides, List.getElem?_map] at found
  obtain ⟨lexeme, there, same⟩ := Option.map_eq_some_iff.mp found
  rw [word_at there, significant?_parenthesis (by simp [same])]

theorem passKeyword_lastKeyword (state : Nesting) (lexeme : Lexeme) (keyword : lexeme.isKeyword = true) :
    (state.passKeyword (state.tokenOf lexeme)).lastKeyword =
      match significant? lexeme with
      | none => state.lastKeyword
      | some word => some ⟨word, state.tokens.size⟩ := by
  have text : (state.tokenOf lexeme).normalized = lexeme.normalized := rfl
  simp only [passKeyword, significant?, keyword, text, Bool.true_and]
  cases Keyword.isInsignificant lexeme.normalized <;> rfl

/-- The running keyword is the last one visible, and each open parenthesis keeps the one
that was the last visible before it. -/
theorem lastKeyword_isLast (reached : Reaches limits lexemes count state) :
    IsLast (sides lexemes) (words lexemes) count state.lastKeyword ∧
      ∀ paren ∈ state.opened, IsLast (sides lexemes) (words lexemes) paren.position paren.lastKeyword := by
  induction reached with
  | start => exact ⟨IsLast.start _ _, fun paren member => by cases member⟩
  | @next count before after lexeme reached found move ih =>
    obtain ⟨running, saved⟩ := ih
    have side := side_at found
    have word := word_at found
    cases move with
    | opening opens shallow =>
      rw [opens] at side
      refine ⟨running.passes (word_parenthesis side) (by simp [side]), ?_⟩
      intro paren member
      rcases List.mem_cons.mp member with rfl | old
      · simpa only [reached.size] using running
      · exact saved paren old
    | @closing paren outer closes opened =>
      have stacked := opened_open reached
      simp only [positions, opened, List.map_cons] at stacked
      rw [closes] at side
      have pair := stacked.pair side
      refine ⟨?_, fun other member => saved other (by simp [opened, member])⟩
      exact (saved paren (by simp [opened])).resumes pair (word_parenthesis pair.opening) (word_parenthesis side)
    | keyword plain keyword =>
      refine ⟨?_, saved⟩
      rw [passKeyword_lastKeyword before lexeme keyword, reached.size]
      cases spoken : significant? lexeme with
      | none => exact running.passes (spoken ▸ word) (by simp [side, plain])
      | some spoken_ => exact .speaks (spoken ▸ word)
    | plain plain other =>
      have silent : significant? lexeme = none := by simp [significant?, other]
      exact ⟨running.passes (silent ▸ word) (by simp [side, plain]), saved⟩

private theorem words_eq {final : Nesting} (ends : Reaches limits lexemes lexemes.length final) :
    TokenSequence.words ⟨final.tokens⟩ = words lexemes := by
  apply ends.map_tokens Token.significant? significant?
  intro token lexeme writes
  unfold Token.significant? significant? Token.isKeyword Lexeme.isKeyword
  rw [writes.kind, writes.normalized]

theorem annotate_lastKeyword {sequence : TokenSequence} (annotated : annotate limits lexemes = .ok sequence)
    {index : Nat} {token : Token} (stored : sequence.tokens[index]? = some token) :
    IsLast sequence.sides sequence.words index token.lastKeyword := by
  obtain ⟨final, ends, closed, rfl⟩ := annotate_ok_iff.mp annotated
  obtain ⟨lexeme, before, after, found, reached, move, next, alone⟩ := ends.token stored
  have kept : (addedToken before lexeme).lastKeyword = before.lastKeyword := by
    unfold addedToken
    split <;> rfl
  have same : token.lastKeyword = before.lastKeyword := (congrArg Token.lastKeyword alone :).trans kept
  rw [sides_eq ends, words_eq ends, same]
  exact (lastKeyword_isLast reached).1

/-- The keyword that a token depends on is the last significant one before it, and none
exactly where there is none; what a closed pair holds does not count after it. -/
theorem tokenize_lastKeyword {text : List Char} {sequence : TokenSequence}
    (read : tokenize limits text = .ok sequence) {index : Nat} {token : Token}
    (stored : sequence.tokens[index]? = some token) (mark : Option KeywordMark) :
    token.lastKeyword = mark ↔ IsLast sequence.sides sequence.words index mark := by
  obtain ⟨lexemes, -, -, annotated⟩ := tokenize_ok_iff.mp read
  have last := annotate_lastKeyword annotated stored
  constructor
  · rintro rfl
    exact last
  · exact last.unique

/-- After the parenthesis the words inside it do not count any more. -/
theorem tokenize_lastKeyword_resumed :
    ∃ sequence token, tokenize {} "SELECT a FROM t WHERE id IN (SELECT b FROM c) AND x = 1".toList = .ok sequence ∧
      sequence.tokens[13]? = some token ∧ token.lastKeyword = some ⟨"WHERE", 4⟩ ∧
      IsLast sequence.sides sequence.words 13 (some ⟨"WHERE", 4⟩) := by
  have seen : (tokenize {} "SELECT a FROM t WHERE id IN (SELECT b FROM c) AND x = 1".toList).toOption.bind
      (fun sequence => sequence.tokens[13]?.map (·.lastKeyword)) = some (some ⟨"WHERE", 4⟩) := by
    decide +kernel
  cases read : tokenize {} "SELECT a FROM t WHERE id IN (SELECT b FROM c) AND x = 1".toList with
  | error error => rw [read] at seen; cases seen
  | ok sequence =>
    rw [read] at seen
    obtain ⟨token, stored, same⟩ := Option.map_eq_some_iff.mp seen
    exact ⟨sequence, token, rfl, stored, same, (tokenize_lastKeyword read stored _).mp same⟩

end QueryFacts.Proofs.SignificantKeyword

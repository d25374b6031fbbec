import QueryFacts.Proofs.SignificantKeyword
import QueryFacts.Proofs.Spelling

/-! A body in parentheses that is read on its own. The two runs go through the body step
by step; below what the body opens, the statement has more parentheses and headers, and
no step inside the body looks at more than the first of these parentheses. -/

namespace QueryFacts
open Text

def KeywordMark.shifted (places : Nat) (mark : KeywordMark) : KeywordMark :=
  { mark with position := mark.position + places }

def OpenParen.shifted (places : Nat) (paren : OpenParen) : OpenParen :=
  { paren with
    position := paren.position + places
    lastKeyword := paren.lastKeyword.map (.shifted places) }

/-- `SELECT` or `WITH`, unquoted. -/
def Token.StartsQuery (token : Token) : Prop :=
  token.isKeyword = true ∧ token.quote = none ∧ (token.normalized = "SELECT" ∨ token.normalized = "WITH")

/-- A token of a statement against the same token of a body that is read on its own, where
the body is in the pair that opens at `opening`, in `levels` sub-queries. -/
structure Token.Within (opening levels : Nat) (token own : Token) : Prop where
  value : token.value = own.value
  normalized : token.normalized = own.normalized
  kind : token.kind = own.kind
  quote : token.quote = own.quote
  spaceBefore : token.spaceBefore = own.spaceBefore
  paren : token.paren = own.paren
  matching : token.matching = own.matching.map (· + (opening + 1))
  enclosing : token.enclosing = some ((own.enclosing.map (· + (opening + 1))).getD opening)
  level : token.level = own.level + levels

end QueryFacts

namespace QueryFacts.Proofs.StandaloneBody
open Nesting Parenthesis NestingRun WellNested SignificantKeyword Spelling Text

theorem isCreateTable_query {lexeme : Lexeme} {rest : List Lexeme} (keyword : lexeme.isKeyword = true)
    (unquoted : lexeme.quote = none) (query : lexeme.normalized = "SELECT" ∨ lexeme.normalized = "WITH") :
    Lexeme.isCreateTable (lexeme :: rest) = false := by
  have other : lexeme.isWord "CREATE" = false := by
    rw [Bool.eq_false_iff]
    intro create
    have word := normalForm_of_spelling (by simp) (spelling_of_isWord create)
    have kind : lexeme.kind = .keyword := by simpa [Lexeme.isKeyword] using keyword
    simp [Lexeme.normalized, kind, unquoted, word] at query
  rw [Lexeme.isCreateTable, List.filter_cons_of_pos keyword]
  split
  next create second others words =>
    obtain rfl : lexeme = create := (List.cons.inj words).1
    rw [other, Bool.false_and]
  next => rfl

variable {limits : Limits} {lexemes : List Lexeme} {count : Nat} {state : Nesting}

/-- No header is deeper than the parentheses that are open, nor than the header after it. -/
theorem headers_sorted (reached : Reaches limits lexemes count state) :
    (state.depth :: state.headers).Pairwise (· ≥ ·) := by
  induction reached with
  | start => simp [Nesting.start]
  | @next count before after lexeme reached found move ih =>
    obtain ⟨below, sorted⟩ := List.pairwise_cons.mp ih
    cases move with
    | opening side shallow =>
      refine List.pairwise_cons.mpr ⟨?_, sorted⟩
      intro header member
      exact Nat.le_succ_of_le (below header member)
    | @closing paren outer side opened =>
      have kept := sorted.sublist (List.dropWhile_sublist (outer.length < ·))
      refine List.pairwise_cons.mpr ⟨?_, kept⟩
      intro header member
      have stops := List.head?_dropWhile_not (outer.length < ·) before.headers
      cases remaining : before.headers.dropWhile (outer.length < ·) with
      | nil => simp [remaining] at member
      | cons first rest =>
        simp only [remaining, List.head?_cons, decide_eq_false_iff_not, Nat.not_lt] at stops member kept
        rcases List.mem_cons.mp member with rfl | inside
        · exact stops
        · exact Nat.le_trans ((List.pairwise_cons.mp kept).1 header inside) stops
    | keyword side keyword =>
      change (before.depth :: before.headersAfter _).Pairwise (· ≥ ·)
      unfold headersAfter
      split
      · split
        · refine List.pairwise_cons.mpr ⟨?_, ih⟩
          intro header member
          rcases List.mem_cons.mp member with rfl | inside
          · exact Nat.le_refl _
          · exact below header inside
        · exact ih
      · split
        · exact ih.sublist ((List.drop_sublist 1 _).cons_cons _)
        · exact ih
    | plain side plain => exact ih

def Passed (state : Nesting) (lexeme : Lexeme) : Prop :=
  ∃ token, state.tokens.back? = some token ∧ token.Writes lexeme

theorem passed_of_move {before after : Nesting} {lexeme : Lexeme} (move : Move limits before lexeme after) :
    Passed after lexeme := by
  refine ⟨addedToken before lexeme, ?_, addedToken_writes before lexeme⟩
  rw [Array.back?_eq_getElem?, move.size]
  exact move.added

/-- The states of the two runs at one place of a body. The parentheses around the body are
`base`, and `places` tokens come before it. -/
structure Aligned (places : Nat) (base : List OpenParen) (outer inner : Nesting) : Prop where
  size : outer.tokens.size = places + inner.tokens.size
  opened : outer.opened = inner.opened.map (.shifted places) ++ base
  headers : ∃ rest, outer.headers = inner.headers.map (· + base.length) ++ rest ∧ ∀ header ∈ rest, header < base.length
  awaits : inner.awaitsColumns = false

/-- After the first token, the two runs also have the same token behind them. -/
structure Inside (places : Nat) (base : List OpenParen) (outer inner : Nesting) : Prop
    extends Aligned places base outer inner where
  previous : ∃ lexeme, Passed outer lexeme ∧ Passed inner lexeme
  lastKeyword : outer.lastKeyword = inner.lastKeyword.map (.shifted places)

/-- What the parentheses around a body are to its tokens. -/
structure Surrounds (opening : Nat) (base : List OpenParen) : Prop where
  opens : base.head?.map (·.position) = some opening
  kind : ∀ paren ∈ base.head?, paren.kind = .subquery ∨ paren.kind = .withQuery

section
variable {opening : Nat} {base : List OpenParen} {outer inner : Nesting} {lexeme : Lexeme}

theorem Surrounds.ne_nil (around : Surrounds opening base) : base ≠ [] := by
  rintro rfl
  cases around.opens

namespace Aligned
variable {places : Nat}

theorem depth (aligned : Aligned places base outer inner) : outer.depth = inner.depth + base.length := by
  simp [Nesting.depth, aligned.opened]

theorem level (aligned : Aligned places base outer inner) :
    outer.level = inner.level + base.countP (·.kind = .subquery) := by
  rw [Nesting.level, aligned.opened, List.countP_append, List.countP_map]
  rfl

/-- The headers of the statement around a body are not at the depth of a place in it. -/
theorem inHeader (aligned : Aligned places base outer inner) :
    (outer.headers.head? == some outer.depth) = (inner.headers.head? == some inner.depth) := by
  obtain ⟨rest, headers, shallow⟩ := aligned.headers
  rw [headers, aligned.depth]
  cases own : inner.headers with
  | nil =>
    cases rest with
    | nil => rfl
    | cons header rest =>
      have bound := shallow header List.mem_cons_self
      simp
      omega
  | cons header others =>
    simp only [List.map_cons, List.cons_append, List.head?_cons]
    rw [Bool.eq_iff_iff]
    simp

end Aligned

namespace Inside
variable {places : Nat}

theorem parenKind (inside : Inside places base outer inner) (around : Surrounds opening base) :
    outer.parenKind = inner.parenKind := by
  obtain ⟨lexeme, ⟨token, before, writes⟩, ⟨own, ownBefore, ownWrites⟩⟩ := inside.previous
  have noColumns : outer.opened.isEmpty = false := by simp [inside.opened, around.ne_nil]
  have comma : outer.opened.head?.all
      (fun paren => paren.kind = .subquery ∨ paren.kind = .columnDefinition ∨ paren.kind = .withQuery) =
        inner.opened.head?.all
          (fun paren => paren.kind = .subquery ∨ paren.kind = .columnDefinition ∨ paren.kind = .withQuery) := by
    rw [inside.opened]
    cases inner.opened with
    | nil =>
      cases base with
      | nil => exact absurd rfl around.ne_nil
      | cons paren rest =>
        have kind := around.kind paren rfl
        simp only [List.map_nil, List.nil_append, List.head?_cons, Option.all_some, List.head?_nil, Option.all_none,
          decide_eq_true_eq]
        rcases kind with kind | kind <;> simp [kind]
    | cons paren rest => rfl
  simp only [Nesting.parenKind, before, ownBefore, inside.inHeader, inside.awaits, noColumns, comma, Token.isKeyword,
    Token.isPunctuation, writes.kind, writes.normalized, writes.value, ownWrites.kind, ownWrites.normalized,
    ownWrites.value, Bool.and_false, Bool.false_and]

theorem headersAfter (inside : Inside places base outer inner) (word : String) :
    ∃ rest, outer.headersAfter word = (inner.headersAfter word).map (· + base.length) ++ rest ∧
      ∀ header ∈ rest, header < base.length := by
  obtain ⟨lexeme, ⟨token, before, writes⟩, ⟨own, ownBefore, ownWrites⟩⟩ := inside.previous
  obtain ⟨rest, headers, shallow⟩ := inside.headers
  have bracket : token.isPunctuation "(" = own.isPunctuation "(" := by
    simp only [Token.isPunctuation, writes.kind, writes.value, ownWrites.kind, ownWrites.value]
  refine ⟨rest, ?_, shallow⟩
  simp only [Nesting.headersAfter, before, ownBefore, Option.all_some, bracket, inside.inHeader]
  split
  · split
    · rw [headers, inside.depth]
      rfl
    · exact headers
  · split
    next ends =>
      cases own : inner.headers with
      | nil => simp [own] at ends
      | cons header others => rw [headers, own]; rfl
    next => exact headers

end Inside

/-- Closing a parenthesis of the body finishes no header of the statement around it. -/
private theorem dropWhile_shifted (headers : List Nat) {rest : List Nat} {depth places : Nat}
    (shallow : ∀ header ∈ rest, header < places) :
    (headers.map (· + places) ++ rest).dropWhile (depth + places < ·) =
      (headers.dropWhile (depth < ·)).map (· + places) ++ rest := by
  induction headers with
  | nil =>
    cases rest with
    | nil => rfl
    | cons header rest =>
      have bound := shallow header List.mem_cons_self
      rw [List.dropWhile_nil, List.map_nil, List.nil_append, List.dropWhile_cons_of_neg]
      simp
      omega
  | cons header headers ih =>
    simp only [List.map_cons, List.cons_append, List.dropWhile_cons, decide_eq_true_eq, Nat.add_lt_add_iff_right]
    split
    · exact ih
    · rfl

/-- The same step of both runs, unless it closes the pair around the body. -/
theorem Inside.step {places : Nat} {after : Nesting} (inside : Inside places base outer inner)
    (around : Surrounds opening base) (move : Move limits outer lexeme after)
    (within : lexeme.side? = some .closing → inner.opened ≠ []) :
    ∃ next, Move limits inner lexeme next ∧ Inside places base after next := by
  have role := inside.parenKind around
  have passed {next : Nesting} (own : Move limits inner lexeme next) :
      ∃ lexeme, Passed after lexeme ∧ Passed next lexeme := ⟨lexeme, passed_of_move move, passed_of_move own⟩
  have sizes {next : Nesting} (own : Move limits inner lexeme next) :
      after.tokens.size = places + next.tokens.size := by
    rw [move.size, own.size, inside.size]
    omega
  cases move with
  | opening side shallow =>
    have own : Move limits inner lexeme _ := .opening side (by have := inside.depth; omega)
    refine ⟨_, own, ⟨sizes own, ?_, inside.headers, by simp [inside.awaits]⟩, passed own, inside.lastKeyword⟩
    simp [inside.opened, inside.size, inside.lastKeyword, role, OpenParen.shifted, Nat.add_comm]
  | @closing paren rest side opened =>
    cases ownOpened : inner.opened with
    | nil => exact absurd ownOpened (within side)
    | cons ownParen ownRest =>
      have own : Move limits inner lexeme _ := .closing side ownOpened
      have stack := inside.opened
      rw [opened, ownOpened, List.map_cons, List.cons_append] at stack
      obtain ⟨rfl, rfl⟩ := List.cons.inj stack
      obtain ⟨headers, same, shallow⟩ := inside.headers
      refine ⟨_, own, ⟨sizes own, rfl, ⟨headers, ?_, shallow⟩, inside.awaits⟩, passed own, rfl⟩
      simp only [same, List.length_append, List.length_map]
      exact dropWhile_shifted _ shallow
  | keyword side keyword =>
    have own : Move limits inner lexeme _ := .keyword side keyword
    refine ⟨_, own, ⟨sizes own, inside.opened, inside.headersAfter _, inside.awaits⟩, passed own, ?_⟩
    rw [passKeyword_lastKeyword _ _ keyword, passKeyword_lastKeyword _ _ keyword]
    cases significant? lexeme with
    | none => exact inside.lastKeyword
    | some word => simp [KeywordMark.shifted, inside.size, Nat.add_comm]
  | plain side plain =>
    have own : Move limits inner lexeme _ := .plain side plain
    exact ⟨_, own, ⟨sizes own, inside.opened, inside.headers, inside.awaits⟩, passed own, inside.lastKeyword⟩

/-- The parenthesis around what the body opens, and around what it does not. -/
private theorem enclosing_shifted (around : Surrounds opening base) (opened : List OpenParen) :
    (opened.map (OpenParen.shifted (opening + 1)) ++ base).head?.map (·.position) =
      some (((opened.head?.map (·.position)).map (· + (opening + 1))).getD opening) := by
  cases opened with
  | nil => exact around.opens
  | cons paren rest => rfl

theorem Aligned.tokenOf (aligned : Aligned (opening + 1) base outer inner) (around : Surrounds opening base)
    (lexeme : Lexeme) : (outer.tokenOf lexeme).enclosing =
        some (((inner.tokenOf lexeme).enclosing.map (· + (opening + 1))).getD opening) ∧
      (outer.tokenOf lexeme).level = (inner.tokenOf lexeme).level + base.countP (·.kind = .subquery) := by
  have enclosed := enclosing_shifted around inner.opened
  rw [← aligned.opened] at enclosed
  exact ⟨enclosed, aligned.level⟩

/-- What the token of a step says of its place, in both runs. -/
theorem Inside.added {after : Nesting} (inside : Inside (opening + 1) base outer inner)
    (around : Surrounds opening base) (move : Move limits outer lexeme after)
    (within : lexeme.side? = some .closing → inner.opened ≠ []) :
    (addedToken outer lexeme).paren = (addedToken inner lexeme).paren ∧
      (addedToken outer lexeme).enclosing =
        some (((addedToken inner lexeme).enclosing.map (· + (opening + 1))).getD opening) ∧
      (addedToken outer lexeme).level = (addedToken inner lexeme).level + base.countP (·.kind = .subquery) ∧
      (addedToken outer lexeme).lastKeyword =
        (addedToken inner lexeme).lastKeyword.map (.shifted (opening + 1)) := by
  obtain ⟨enclosed, level⟩ := inside.tokenOf around lexeme
  cases move with
  | opening side shallow =>
    simp only [addedToken, side, openingToken, inside.parenKind around, inside.level]
    exact ⟨trivial, enclosed, by omega, inside.lastKeyword⟩
  | @closing paren rest side opened =>
    cases ownOpened : inner.opened with
    | nil => exact absurd ownOpened (within side)
    | cons ownParen ownRest =>
      have stack := inside.opened
      rw [opened, ownOpened, List.map_cons, List.cons_append] at stack
      obtain ⟨rfl, rfl⟩ := List.cons.inj stack
      simp only [addedToken, side, opened, ownOpened, closingToken]
      exact ⟨rfl, enclosing_shifted around ownRest, level, inside.lastKeyword⟩
  | keyword side keyword =>
    simp only [addedToken, side]
    exact ⟨rfl, enclosed, level, inside.lastKeyword⟩
  | plain side plain =>
    simp only [addedToken, side]
    exact ⟨rfl, enclosed, level, inside.lastKeyword⟩

/-- A body in parentheses starts with no header of its own. -/
theorem Aligned.start {body : List Lexeme} (reached : Reaches limits lexemes count outer)
    (shallow : ∀ header ∈ outer.headers, header < outer.opened.length) (query : Lexeme.isCreateTable body = false) :
    Aligned count outer.opened outer (Nesting.start body) :=
  ⟨reached.size, rfl, ⟨outer.headers, rfl, shallow⟩, query⟩

theorem Aligned.added (aligned : Aligned (opening + 1) base outer inner) (around : Surrounds opening base)
    (keyword : lexeme.isKeyword = true) :
    (addedToken outer lexeme).paren = (addedToken inner lexeme).paren ∧
      (addedToken outer lexeme).enclosing =
        some (((addedToken inner lexeme).enclosing.map (· + (opening + 1))).getD opening) ∧
      (addedToken outer lexeme).level = (addedToken inner lexeme).level + base.countP (·.kind = .subquery) := by
  have side := side?_of_keyword keyword
  have plain (state : Nesting) : addedToken state lexeme = state.tokenOf lexeme := by simp [addedToken, side]
  rw [plain, plain]
  exact ⟨rfl, aligned.tokenOf around lexeme⟩

/-- The first keyword of a body counts in both runs, and WITH opens a header in both. -/
theorem Inside.start {body : List Lexeme} {places : Nat} (aligned : Aligned places base outer (Nesting.start body))
    {bracket : Lexeme} (before : Passed outer bracket) (opens : bracket.isPunctuation "(" = true)
    (keyword : lexeme.isKeyword = true) (query : lexeme.normalized = "SELECT" ∨ lexeme.normalized = "WITH") :
    Inside places base (outer.passKeyword (outer.tokenOf lexeme))
      ((Nesting.start body).passKeyword ((Nesting.start body).tokenOf lexeme)) := by
  have side := side?_of_keyword keyword
  have passed (state : Nesting) : Passed (state.passKeyword (state.tokenOf lexeme)) lexeme := by
    have own : Move {} state lexeme _ := .keyword side keyword
    exact passed_of_move own
  have spoken : significant? lexeme = some lexeme.normalized := by
    rcases query with word | word <;> simp [significant?, keyword, word, Keyword.isInsignificant, Keyword.insignificant]
  have size : outer.tokens.size = places := aligned.size
  refine ⟨⟨?_, aligned.opened, ?_, aligned.awaits⟩, ⟨lexeme, passed _, passed _⟩, ?_⟩
  · simp [passKeyword, Nesting.start, size]
  · obtain ⟨token, back, writes⟩ := before
    obtain ⟨rest, headers, shallow⟩ := aligned.headers
    refine ⟨rest, ?_, shallow⟩
    have none_ : (outer.headers.head? == some outer.depth) = false := aligned.inHeader
    have bracket_ : token.isPunctuation "(" = true := by
      rw [← opens, Token.isPunctuation, Lexeme.isPunctuation, writes.kind, writes.value]
    change outer.headersAfter lexeme.normalized = ((Nesting.start body).headersAfter lexeme.normalized).map _ ++ rest
    rcases query with word | word
    · have first : (Nesting.start body).headersAfter "SELECT" = [] := rfl
      rw [word, first, Nesting.headersAfter, none_, headers]
      simp [Nesting.start]
    · have first : (Nesting.start body).headersAfter "WITH" = [0] := rfl
      rw [word, first, Nesting.headersAfter, back, Option.all_some, bracket_, headers, aligned.depth]
      simp [Nesting.start, Nesting.depth]
  · rw [passKeyword_lastKeyword _ _ keyword, passKeyword_lastKeyword _ _ keyword, spoken]
    simp [KeywordMark.shifted, Nesting.start, size]

end

section
variable {first last : Nat} {base : List OpenParen}

/-- Before the end of the pair around it, a body closes only what it opened. -/
private theorem closes_own {place : Nat} {outer inner : Nesting} {lexeme : Lexeme}
    (pair : Pair (sides lexemes) first last) (around : Surrounds first base) (before : place < last)
    (reached : Reaches limits lexemes place outer) (found : lexemes[place]? = some lexeme)
    (aligned : Aligned (first + 1) base outer inner) : lexeme.side? = some .closing → inner.opened ≠ [] := by
  intro closes empty
  have stacked := opened_open reached
  have there := side_at found
  rw [closes] at there
  rw [aligned.opened, empty, List.map_nil, List.nil_append] at stacked
  cases base with
  | nil => exact around.ne_nil rfl
  | cons paren rest =>
    obtain rfl : paren.position = first := Option.some.inj around.opens
    have := pair.last_unique (stacked.pair there)
    omega

private theorem closed_own {outer inner : Nesting} (pair : Pair (sides lexemes) first last)
    (reached : Reaches limits lexemes last outer) (aligned : Aligned (first + 1) base outer inner) :
    inner.opened = [] := by
  have stacked := opened_open reached
  rw [aligned.opened] at stacked
  cases own : inner.opened with
  | nil => rfl
  | cons paren rest =>
    rw [own] at stacked
    have same : first = paren.position + (first + 1) := pair.first_unique (stacked.pair pair.closing)
    omega

/-- Each place of a body after its first token is reached in both runs. -/
theorem body_reaches {head : Lexeme} (pair : Pair (sides lexemes) first last) (around : Surrounds first base)
    {outer : Nesting} (reached : Reaches limits lexemes (first + 1) outer)
    (aligned : Aligned (first + 1) base outer (Nesting.start ((lexemes.take last).drop (first + 1))))
    {bracket : Lexeme} (before : Passed outer bracket) (opens : bracket.isPunctuation "(" = true)
    (stored : lexemes[first + 1]? = some head) (keyword : head.isKeyword = true)
    (query : head.normalized = "SELECT" ∨ head.normalized = "WITH") :
    ∀ index, first + 1 + (index + 1) ≤ last → ∀ after, Reaches limits lexemes (first + 1 + (index + 1)) after →
      ∃ inner, Reaches limits ((lexemes.take last).drop (first + 1)) (index + 1) inner ∧
        Inside (first + 1) base after inner := by
  have body {index : Nat} (within : first + 1 + index < last) :
      ((lexemes.take last).drop (first + 1))[index]? = lexemes[first + 1 + index]? := by
    rw [List.getElem?_drop, List.getElem?_take_of_lt within]
  intro index
  induction index with
  | zero =>
    intro within after next
    cases next with
    | @next _ earlier _ lexeme again found move =>
      obtain rfl := again.unique reached
      obtain rfl := Option.some.inj (found.symm.trans stored)
      have side := side?_of_keyword keyword
      cases move with
      | keyword =>
        -- The first lexeme is the keyword that both runs start the body with.
        exact ⟨_, .next .start ((body within).trans found) (.keyword side keyword),
          .start aligned before opens keyword query⟩
      | opening other | closing other => simp [side] at other
      | plain _ other => simp [keyword] at other
  | succ index ih =>
    intro within after next
    cases next with
    | @next _ earlier _ lexeme again found move =>
      have bound : first + 1 + (index + 1) < last := by omega
      obtain ⟨inner, own, inside⟩ := ih (by omega) earlier again
      have closes := closes_own pair around bound again found inside.toAligned
      obtain ⟨later, step, still⟩ := inside.step around move closes
      exact ⟨later, .next own ((body bound).trans found) step, still⟩

private theorem surrounded {final : Nesting} (ends : Reaches limits lexemes lexemes.length final)
    (pair : Pair (sides lexemes) first last) {opening : Token} (opens : final.tokens[first]? = some opening)
    (kind : opening.paren = some ⟨.subquery, .opening⟩ ∨ opening.paren = some ⟨.withQuery, .opening⟩) :
    ∃ outer bracket, Reaches limits lexemes (first + 1) outer ∧ Passed outer bracket ∧
      bracket.isPunctuation "(" = true ∧ Surrounds first outer.opened ∧
      (∀ header ∈ outer.headers, header < outer.opened.length) ∧
      opening.level = outer.opened.countP (·.kind = .subquery) := by
  obtain ⟨bracket, before, outer, found, reached, move, next, alone⟩ := ends.token opens
  have side : bracket.side? = some .opening := Option.some.inj ((side_at found).symm.trans pair.opening)
  have paren : opening.paren = (addedToken before bracket).paren := (congrArg Token.paren alone :)
  have level : opening.level = (addedToken before bracket).level := (congrArg Token.level alone :)
  have passed := passed_of_move move
  rw [addedToken_level move] at level
  refine ⟨outer, bracket, next, passed, side?_eq_opening.mp side, ?_, ?_, ?_⟩
  · cases move with
    | opening =>
      refine ⟨congrArg some reached.size, ?_⟩
      intro other head
      obtain rfl := Option.some.inj head
      rw [paren] at kind
      simpa [addedToken, side, openingToken] using kind
    | closing other | keyword other | plain other => simp [side] at other
  · cases move with
    | opening =>
      intro header member
      exact Nat.lt_succ_of_le ((List.pairwise_cons.mp (headers_sorted reached)).1 header member)
    | closing other | keyword other | plain other => simp [side] at other
  · cases move with
    | opening => simpa only [openAt, side, if_true] using level
    | closing other | keyword other | plain other => simp [side] at other

private theorem matching_within {sequence body : TokenSequence} (nested : sequence.WellNested)
    (own_ : body.WellNested) (pair : sequence.Pair first last)
    (part : body.sides = (sequence.sides.take last).drop (first + 1)) {index : Nat} {token own : Token}
    (stored : sequence.tokens[first + 1 + index]? = some token) (alone : body.tokens[index]? = some own)
    (within : first + 1 + index < last) : token.matching = own.matching.map (· + (first + 1)) := by
  have pairs {index other : Nat} (inside : first + 1 + other < last) :
      body.Pair index other ↔ sequence.Pair (first + 1 + index) (first + 1 + other) := by
    rw [TokenSequence.Pair, part, Parenthesis.Pair.between_iff inside]
    rfl
  have bound {index other : Nat} (partners : body.Pair index other) : first + 1 + other < last := by
    have inside := (List.getElem?_eq_some_iff.mp partners.closing).1
    rw [part, List.length_drop, List.length_take] at inside
    omega
  apply Option.ext
  intro other
  rw [(nested.placed _ _ stored).matching, Option.map_eq_some_iff]
  simp only [(own_.placed _ _ alone).matching]
  constructor
  · rintro (partners | partners)
    · have ordered := partners.ordered
      have inside := pair.nested partners (by omega) within
      obtain ⟨place, rfl⟩ := Nat.exists_eq_add_of_le (show first + 1 ≤ other by omega)
      exact ⟨place, .inl ((pairs inside).mpr partners), Nat.add_comm ..⟩
    · have inside := pair.nested_opening partners (by omega) within
      obtain ⟨place, rfl⟩ := Nat.exists_eq_add_of_le (show first + 1 ≤ other by omega)
      exact ⟨place, .inr ((pairs within).mpr partners), Nat.add_comm ..⟩
  · rintro ⟨place, partners | partners, rfl⟩
    · exact .inl (Nat.add_comm place _ ▸ (pairs (bound partners)).mp partners)
    · exact .inr (Nat.add_comm place _ ▸ (pairs within).mp partners)

end

private theorem within_of_added {outer inner : Nesting} {lexeme : Lexeme} {token own : Token} {first levels : Nat}
    (alone : token.alone = (addedToken outer lexeme).alone) (ownAlone : own.alone = (addedToken inner lexeme).alone)
    (paren : (addedToken outer lexeme).paren = (addedToken inner lexeme).paren)
    (enclosing : (addedToken outer lexeme).enclosing =
      some (((addedToken inner lexeme).enclosing.map (· + (first + 1))).getD first))
    (level : (addedToken outer lexeme).level = (addedToken inner lexeme).level + levels)
    (matching : token.matching = own.matching.map (· + (first + 1))) : token.Within first levels own := by
  have writes := (addedToken_writes outer lexeme).ofAlone alone
  have ownWrites := (addedToken_writes inner lexeme).ofAlone ownAlone
  have ownParen : own.paren = (addedToken inner lexeme).paren := (congrArg Token.paren ownAlone :)
  have ownEnclosing : own.enclosing = (addedToken inner lexeme).enclosing := (congrArg Token.enclosing ownAlone :)
  have ownLevel : own.level = (addedToken inner lexeme).level := (congrArg Token.level ownAlone :)
  refine ⟨writes.value.trans ownWrites.value.symm, writes.normalized.trans ownWrites.normalized.symm,
    writes.kind.trans ownWrites.kind.symm, writes.quote.trans ownWrites.quote.symm,
    writes.spaceBefore.trans ownWrites.spaceBefore.symm, ?_, matching, ?_, ?_⟩
  · rw [ownParen, ← paren]
    exact (congrArg Token.paren alone :)
  · rw [ownEnclosing, ← enclosing]
    exact (congrArg Token.enclosing alone :)
  · rw [ownLevel, ← level]
    exact (congrArg Token.level alone :)

private theorem body_follows {final : Nesting} (ends : Reaches limits lexemes lexemes.length final) {first last : Nat}
    (pair : Pair (sides lexemes) first last) {opening head : Token} (opens : final.tokens[first]? = some opening)
    (kind : opening.paren = some ⟨.subquery, .opening⟩ ∨ opening.paren = some ⟨.withQuery, .opening⟩)
    (next : final.tokens[first + 1]? = some head) (query : head.StartsQuery) :
    ∃ base lexeme, Surrounds first base ∧ opening.level = base.countP (·.kind = .subquery) ∧ first + 1 < last ∧
      lexemes[first + 1]? = some lexeme ∧ lexeme.isKeyword = true ∧
      ∀ index, first + 1 + index ≤ last → ∀ after, Reaches limits lexemes (first + 1 + index) after →
        ∃ inner, Reaches limits ((lexemes.take last).drop (first + 1)) index inner ∧
          Aligned (first + 1) base after inner ∧ (0 < index → Inside (first + 1) base after inner) := by
  obtain ⟨outer, bracket, reached, before, bracketOpens, around, shallow, level⟩ := surrounded ends pair opens kind
  obtain ⟨lexeme, state, -, stored, -, -, -, alone⟩ := ends.token next
  have writes := (addedToken_writes state lexeme).ofAlone alone
  obtain ⟨keyword, unquoted, word⟩ := query
  rw [writes.normalized] at word
  have speaks : lexeme.isKeyword = true := by
    rw [← keyword, Token.isKeyword, Lexeme.isKeyword, writes.kind]
  have ordered : first + 1 < last := by
    have after := pair.ordered
    have different : first + 1 ≠ last := by
      rintro rfl
      have closing := (side_at stored).symm.trans pair.closing
      simp [side?_of_keyword speaks] at closing
    omega
  have starts : (lexemes.take last).drop (first + 1) = lexeme :: ((lexemes.take last).drop (first + 1)).tail := by
    apply List.eq_cons_of_mem_head?
    rw [List.head?_eq_getElem?, List.getElem?_drop, List.getElem?_take_of_lt ordered]
    exact stored
  have aligned : Aligned (first + 1) outer.opened outer (Nesting.start ((lexemes.take last).drop (first + 1))) := by
    apply Aligned.start reached shallow
    rw [starts]
    exact isCreateTable_query speaks (writes.quote.symm.trans unquoted) word
  refine ⟨outer.opened, lexeme, around, level, ordered, stored, speaks, ?_⟩
  intro index within after there
  cases index with
  | zero =>
    obtain rfl := there.unique reached
    exact ⟨_, .start, aligned, fun later => absurd later (Nat.lt_irrefl 0)⟩
  | succ index =>
    obtain ⟨inner, own, inside⟩ :=
      body_reaches pair around reached aligned before bracketOpens stored speaks word index within after there
    exact ⟨inner, own, inside.toAligned, fun _ => inside⟩

/-- A body that starts with SELECT or WITH is annotated on its own as it is in the statement. -/
theorem annotate_body {sequence : TokenSequence} (annotated : annotate limits lexemes = .ok sequence)
    {first last : Nat} (pair : sequence.Pair first last) {opening head : Token}
    (opens : sequence.tokens[first]? = some opening)
    (kind : opening.paren = some ⟨.subquery, .opening⟩ ∨ opening.paren = some ⟨.withQuery, .opening⟩)
    (next : sequence.tokens[first + 1]? = some head) (query : head.StartsQuery) :
    ∃ body, annotate limits ((lexemes.take last).drop (first + 1)) = .ok body ∧ body.size = last - (first + 1) ∧
      ∀ index token own, sequence.tokens[first + 1 + index]? = some token → body.tokens[index]? = some own →
        token.Within first opening.level own ∧
          (0 < index → token.lastKeyword = own.lastKeyword.map (.shifted (first + 1))) := by
  have nested := annotate_wellNested annotated
  obtain ⟨final, ends, closed, rfl⟩ := annotate_ok_iff.mp annotated
  have whole : TokenSequence.sides ⟨final.tokens⟩ = sides lexemes := sides_eq ends
  have parens : Pair (sides lexemes) first last := whole ▸ pair
  obtain ⟨base, lexeme, around, level, ordered, stored, speaks, follows⟩ :=
    body_follows ends parens opens kind next query
  have inside : last < lexemes.length := by
    simpa [sides] using (List.getElem?_eq_some_iff.mp parens.closing).1
  have length : ((lexemes.take last).drop (first + 1)).length = last - (first + 1) := by
    rw [List.length_drop, List.length_take]
    omega
  have lastPlace : first + 1 + ((lexemes.take last).drop (first + 1)).length = last := by omega
  obtain ⟨outer, reached⟩ := ends.earlier (Nat.le_of_lt inside)
  obtain ⟨inner, own, aligned, -⟩ := follows _ (Nat.le_of_eq lastPlace) outer (lastPlace.symm ▸ reached)
  have ran := annotate_ok_iff.mpr ⟨inner, own, closed_own parens reached aligned, rfl⟩
  refine ⟨⟨inner.tokens⟩, ran, own.size.trans length, ?_⟩
  intro index token ownToken found ownFound
  have bound : first + 1 + index < last := by
    have := (Array.getElem?_eq_some_iff.mp ownFound).1
    rw [own.size, length] at this
    omega
  have part :
      TokenSequence.sides ⟨inner.tokens⟩ = (TokenSequence.sides ⟨final.tokens⟩ |>.take last).drop (first + 1) := by
    rw [sides_eq own, whole, sides, sides, List.map_drop, List.map_take]
  have matching := matching_within nested (annotate_wellNested ran) pair part found ownFound bound
  obtain ⟨spoken, state, after, there, reachedState, move, -, alone⟩ := ends.token found
  obtain ⟨again, ownState, -, ownThere, reachedOwn, -, -, ownAlone⟩ := own.token ownFound
  obtain rfl : spoken = again := by
    rw [List.getElem?_drop, List.getElem?_take_of_lt bound] at ownThere
    exact Option.some.inj (there.symm.trans ownThere)
  obtain ⟨same, unique, alignedState, insideState⟩ := follows index (Nat.le_of_lt bound) state reachedState
  obtain rfl := unique.unique reachedOwn
  cases index with
  | zero =>
    obtain rfl := Option.some.inj (stored.symm.trans there)
    obtain ⟨paren, enclosing, levels⟩ := alignedState.added around speaks
    exact ⟨within_of_added alone ownAlone paren enclosing (level ▸ levels) matching,
      fun later => absurd later (Nat.lt_irrefl 0)⟩
  | succ index =>
    have insides := insideState (Nat.succ_pos index)
    have closes := closes_own parens around bound reachedState there alignedState
    obtain ⟨paren, enclosing, levels, keyword⟩ := insides.added around move closes
    refine ⟨within_of_added alone ownAlone paren enclosing (level ▸ levels) matching, fun _ => ?_⟩
    have mark : token.lastKeyword = (addedToken state spoken).lastKeyword := (congrArg Token.lastKeyword alone :)
    have ownMark : ownToken.lastKeyword = (addedToken same spoken).lastKeyword :=
      (congrArg Token.lastKeyword ownAlone :)
    rw [mark, ownMark, keyword]

theorem annotate_body_subquery :
    ∃ lexemes sequence opening body, annotate {} lexemes = .ok sequence ∧ sequence.tokens[5]? = some opening ∧
      opening.matching = some 15 ∧ annotate {} ((lexemes.take 15).drop 6) = .ok body ∧ body.size = 9 ∧
      ∀ index token own, sequence.tokens[6 + index]? = some token → body.tokens[index]? = some own →
        token.Within 5 opening.level own ∧
          (0 < index → token.lastKeyword = own.lastKeyword.map (.shifted 6)) := by
  have seen : (tokenize {} "SELECT s.a FROM (SELECT a, f(b) FROM t) s".toList).toOption.bind (fun sequence =>
      sequence.tokens[5]?.bind fun opening => sequence.tokens[6]?.map fun head =>
        (opening.paren, opening.matching, head.isKeyword, head.quote, head.normalized)) =
      some (some ⟨.subquery, .opening⟩, some 15, true, none, "SELECT") := by
    decide +kernel
  cases read : tokenize {} "SELECT s.a FROM (SELECT a, f(b) FROM t) s".toList with
  | error error => rw [read] at seen; cases seen
  | ok sequence =>
    rw [read] at seen
    change (sequence.tokens[5]?.bind _) = _ at seen
    obtain ⟨opening, opens, seen⟩ := Option.bind_eq_some_iff.mp seen
    obtain ⟨head, next, seen⟩ := Option.map_eq_some_iff.mp seen
    simp only [Prod.mk.injEq] at seen
    obtain ⟨kind, matching, keyword, unquoted, word⟩ := seen
    obtain ⟨lexemes, -, -, annotated⟩ := tokenize_ok_iff.mp read
    have pair : sequence.Pair 5 15 := pair_of_matching (annotate_wellNested annotated) opens matching (by decide)
    obtain ⟨body, ran, size, same⟩ :=
      annotate_body annotated pair opens (.inl kind) next ⟨keyword, unquoted, .inl word⟩
    exact ⟨lexemes, sequence, opening, body, annotated, opens, matching, ran, size, same⟩

end QueryFacts.Proofs.StandaloneBody

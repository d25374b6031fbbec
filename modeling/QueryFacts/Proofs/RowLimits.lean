import QueryFacts.Proofs.SignificantKeyword
import QueryFacts.RowLimit

/-! Which numbers make the row limit of a statement. The parentheses around a number do not
matter, only the last significant keyword before it; so the limit of a sub-query comes first
when it is written first, and the limit at the end of the statement is then left out. -/

namespace QueryFacts
open Proofs

namespace TokenSequence

/-- A number of at most 64 bits whose last significant keyword is `word`. -/
structure Counts (sequence : TokenSequence) (word : String) (place n : Nat) : Prop where
  number : ∃ token, sequence.tokens[place]? = some token ∧ token.kind = .integer ∧
    Decimal.natOf? token.value.toList = some n
  small : n < UInt64.size
  governed : ∃ keyword, SignificantKeyword.IsLast sequence.sides sequence.words place (some ⟨word, keyword⟩)

def AfterComma (sequence : TokenSequence) (place : Nat) : Prop :=
  ∃ before token, place = before + 1 ∧ sequence.tokens[before]? = some token ∧ token.isPunctuation "," = true

/-- The number of the last place before `count` that has one. -/
def Latest (holds : Nat → Nat → Prop) (count : Nat) : Option Nat → Prop
  | none => ∀ place < count, ∀ n, ¬holds place n
  | some n => ∃ place < count, holds place n ∧ ∀ later, place < later → later < count → ∀ m, ¬holds later m

/-- A number is the limit when it is the first one after LIMIT, or a later one after a comma. -/
def SetsLimit (sequence : TokenSequence) (place n : Nat) : Prop :=
  sequence.Counts "LIMIT" place n ∧
    (sequence.AfterComma place ∨ ∀ earlier < place, ∀ m, ¬sequence.Counts "LIMIT" earlier m)

/-- The rows to skip are a number after OFFSET, or the limit so far when a comma and
another number follow LIMIT. -/
def SetsSkipped (sequence : TokenSequence) (place m : Nat) : Prop :=
  sequence.Counts "OFFSET" place m ∨
    (∃ n, sequence.Counts "LIMIT" place n) ∧ sequence.AfterComma place ∧ Latest sequence.SetsLimit place (some m)

end TokenSequence

def Token.Names (token : Token) (word : String) : Prop := token.kind = .keyword ∧ token.normalized = word

def Token.Number (token : Token) (n : Nat) : Prop :=
  token.kind = .integer ∧ Decimal.natOf? token.value.toList = some n ∧ n < UInt64.size

/-- How a statement says at its end which rows it wants. -/
inductive RowClause where
  /-- `LIMIT n` -/
  | limit (n : Nat)
  /-- `LIMIT n OFFSET m` -/
  | offset (n m : Nat)
  /-- `LIMIT m, n` -/
  | comma (m n : Nat)

namespace RowClause

def rows : RowClause → RowLimit
  | .limit n => ⟨n, 0⟩
  | .offset n m => ⟨n, m⟩
  | .comma m n => ⟨n, m⟩

inductive Written : RowClause → List Token → Prop where
  | limit {keyword number : Token} {n : Nat} (first : keyword.Names "LIMIT") (second : number.Number n) :
      Written (.limit n) [keyword, number]
  | offset {keyword number other skipped : Token} {n m : Nat} (first : keyword.Names "LIMIT") (second : number.Number n)
      (third : other.Names "OFFSET") (fourth : skipped.Number m) :
      Written (.offset n m) [keyword, number, other, skipped]
  | comma {keyword skipped separator number : Token} {m n : Nat} (first : keyword.Names "LIMIT")
      (second : skipped.Number m) (third : separator.isPunctuation "," = true) (fourth : number.Number n) :
      Written (.comma m n) [keyword, skipped, separator, number]

/-- What the numbers of the first `count` tokens must not say, so that the clause after
them is the one that counts. -/
def Undisturbed (sequence : TokenSequence) (count : Nat) : RowClause → Prop
  | .limit n =>
    (TokenSequence.Latest sequence.SetsLimit count none ∨ TokenSequence.Latest sequence.SetsLimit count (some n)) ∧
      (TokenSequence.Latest sequence.SetsSkipped count none ∨ TokenSequence.Latest sequence.SetsSkipped count (some 0))
  | .offset n _ =>
    TokenSequence.Latest sequence.SetsLimit count none ∨ TokenSequence.Latest sequence.SetsLimit count (some n)
  | .comma m _ =>
    TokenSequence.Latest sequence.SetsLimit count none ∨ TokenSequence.Latest sequence.SetsLimit count (some m)

end RowClause

end QueryFacts

namespace QueryFacts.TokenSequence
open Proofs.SignificantKeyword

section
variable {holds : Nat → Nat → Prop} {count n : Nat} {found : Option Nat}

theorem latest_start (holds : Nat → Nat → Prop) : Latest holds 0 none :=
  fun place before => absurd before (Nat.not_lt_zero place)

theorem Latest.keeps (latest : Latest holds count found) (silent : ∀ n, ¬holds count n) :
    Latest holds (count + 1) found := by
  cases found with
  | none =>
    intro place before n
    rcases Nat.lt_succ_iff_lt_or_eq.mp before with earlier | rfl
    · exact latest place earlier n
    · exact silent n
  | some n =>
    obtain ⟨place, before, here, last⟩ := latest
    refine ⟨place, Nat.lt_succ_of_lt before, here, ?_⟩
    intro later after upper m
    rcases Nat.lt_succ_iff_lt_or_eq.mp upper with earlier | rfl
    · exact last later after earlier m
    · exact silent m

theorem latest_takes (here : holds count n) : Latest holds (count + 1) (some n) :=
  ⟨count, Nat.lt_succ_self count, here, fun later after upper => by omega⟩

theorem Latest.unique (functional : ∀ place n m, holds place n → holds place m → n = m)
    (latest : Latest holds count found) {other : Option Nat} (also : Latest holds count other) : found = other := by
  cases found with
  | none =>
    cases other with
    | none => rfl
    | some m =>
      obtain ⟨place, before, here, -⟩ := also
      exact absurd here (latest place before m)
  | some n =>
    obtain ⟨place, before, here, last⟩ := latest
    cases other with
    | none => exact absurd here (also place before n)
    | some m =>
      obtain ⟨second, early, there, final⟩ := also
      rcases Nat.lt_trichotomy place second with less | rfl | greater
      · exact absurd there (last second less early m)
      · rw [functional place n m here there]
      · exact absurd here (final place greater before n)

theorem Latest.eq_iff (functional : ∀ place n m, holds place n → holds place m → n = m)
    (latest : Latest holds count found) (other : Option Nat) : found = other ↔ Latest holds count other := by
  constructor
  · rintro rfl
    exact latest
  · exact Latest.unique functional latest

theorem Latest.getD_eq_iff (functional : ∀ place n m, holds place n → holds place m → n = m)
    (latest : Latest holds count found) (default n : Nat) :
    found.getD default = n ↔ default = n ∧ Latest holds count none ∨ Latest holds count (some n) := by
  rw [← Latest.eq_iff functional latest, ← Latest.eq_iff functional latest]
  cases found with
  | none => simp
  | some m => simp

end

variable {sequence : TokenSequence} {word : String} {count place n m : Nat}

theorem Counts.number_unique (counts : sequence.Counts word place n) {other : String}
    (also : sequence.Counts other place m) : n = m := by
  obtain ⟨token, stored, -, value⟩ := counts.number
  obtain ⟨token', stored', -, value'⟩ := also.number
  obtain rfl := Option.some.inj (stored.symm.trans stored')
  exact Option.some.inj (value.symm.trans value')

theorem Counts.word_unique (counts : sequence.Counts word place n) {other : String}
    (also : sequence.Counts other place m) : word = other := by
  obtain ⟨keyword, last⟩ := counts.governed
  obtain ⟨keyword', last'⟩ := also.governed
  have same := last.unique last'
  simp only [Option.some.injEq, KeywordMark.mk.injEq] at same
  exact same.1

theorem SetsLimit.unique (place n m : Nat) (sets : sequence.SetsLimit place n)
    (also : sequence.SetsLimit place m) : n = m :=
  sets.1.number_unique also.1

theorem SetsSkipped.unique (place n m : Nat) (sets : sequence.SetsSkipped place n)
    (also : sequence.SetsSkipped place m) :
    n = m := by
  rcases sets with offset | ⟨⟨limit, counts⟩, -, latest⟩
  · rcases also with offset' | ⟨⟨limit, counts⟩, -⟩
    · exact offset.number_unique offset'
    · exact absurd (offset.word_unique counts) (by decide)
  · rcases also with offset | ⟨-, -, latest'⟩
    · exact absurd (offset.word_unique counts) (by decide)
    · exact Option.some.inj (Latest.unique SetsLimit.unique latest latest')

/-- There is a limit as soon as there is a number after LIMIT. -/
theorem no_limit_iff : Latest sequence.SetsLimit count none ↔
    ∀ place < count, ∀ n, ¬sequence.Counts "LIMIT" place n := by
  constructor
  · intro none place
    induction place using Nat.strong_induction_on with
    | _ place ih =>
      intro before n counts
      exact none place before n ⟨counts, .inr fun earlier less => ih earlier less (Nat.lt_trans less before)⟩
  · intro none place before n sets
    exact none place before n sets.1

end QueryFacts.TokenSequence

namespace QueryFacts.Proofs.RowLimits
open NestingRun WellNested SignificantKeyword TokenSequence

variable {limits : Limits} {lexemes : List Lexeme} {sequence : TokenSequence} {word : String} {place n m : Nat}

/-- The keyword of a cursor is the one that governs its place. -/
theorem lastKeyword_iff (annotated : annotate limits lexemes = .ok sequence) (inside : place < sequence.size)
    (named : word ≠ "") :
    (sequence.cursor place).lastKeyword = word ↔
      ∃ keyword, IsLast sequence.sides sequence.words place (some ⟨word, keyword⟩) := by
  have stored := Array.getElem?_eq_getElem inside
  have last := annotate_lastKeyword annotated stored
  rw [Cursor.lastKeyword, Cursor.lastKeyword?, Cursor.token?_cursor, stored, Option.bind_some]
  cases mark : sequence.tokens[place].lastKeyword with
  | none =>
    constructor
    · intro same
      exact absurd same.symm named
    · rintro ⟨keyword, governs⟩
      cases (mark ▸ last).unique governs
  | some mark' =>
    rw [mark] at last
    constructor
    · rintro rfl
      exact ⟨mark'.position, last⟩
    · rintro ⟨keyword, governs⟩
      cases last.unique governs
      rfl

theorem counts_iff (annotated : annotate limits lexemes = .ok sequence) (inside : place < sequence.size)
    (named : word ≠ "") :
    sequence.Counts word place n ↔ (sequence.cursor place).isInteger = true ∧
      (Decimal.natOf? (sequence.cursor place).value.toList).filter (· < UInt64.size) = some n ∧
      (sequence.cursor place).lastKeyword = word := by
  have stored : (sequence.cursor place).token? = some sequence.tokens[place] := by
    rw [Cursor.token?_cursor]
    exact Array.getElem?_eq_getElem inside
  rw [lastKeyword_iff annotated inside named]
  simp only [Cursor.isInteger, Cursor.kind?, Cursor.value, stored, Option.map_some, Option.getD_some, beq_iff_eq,
    Option.some.injEq, Option.filter_eq_some_iff, decide_eq_true_eq]
  constructor
  · rintro ⟨⟨token, there, kind, value⟩, small, governed⟩
    obtain rfl := Option.some.inj ((Array.getElem?_eq_getElem inside).symm.trans there)
    exact ⟨kind, ⟨value, small⟩, governed⟩
  · rintro ⟨kind, ⟨value, small⟩, governed⟩
    exact ⟨⟨_, Array.getElem?_eq_getElem inside, kind, value⟩, small, governed⟩

theorem isComma_previous_iff (inside : place < sequence.size) :
    (sequence.cursor place).previous.isComma = true ↔ sequence.AfterComma place := by
  cases place with
  | zero =>
    rw [Cursor.cursor_of_lt inside]
    constructor
    · intro comma
      simp [Cursor.previous, Cursor.back, Cursor.isComma, Cursor.kind?, Cursor.token?] at comma
    · rintro ⟨before, token, same, -⟩
      omega
  | succ before =>
    have stored := Array.getElem?_eq_getElem (Nat.lt_of_succ_lt inside)
    rw [Cursor.previous_cursor inside, Cursor.isComma, Cursor.kind?, Cursor.value, Cursor.token?_cursor, stored]
    simp only [Option.map_some, Option.getD_some, TokenSequence.AfterComma, Token.isPunctuation]
    constructor
    · intro comma
      exact ⟨before, _, rfl, stored, by simpa using comma⟩
    · rintro ⟨other, token, same, there, comma⟩
      obtain rfl := Nat.succ.inj same
      obtain rfl := Option.some.inj (stored.symm.trans there)
      simpa using comma

/-- What is found in the first `count` tokens. -/
def foundIn (sequence : TokenSequence) (count : Nat) : RowLimit.Found :=
  (List.range count).foldl (fun found place =>
    if (sequence.cursor place).isInteger then found.add (sequence.cursor place) else found) {}

theorem foundIn_succ (sequence : TokenSequence) (count : Nat) :
    foundIn sequence (count + 1) = if (sequence.cursor count).isInteger
      then (foundIn sequence count).add (sequence.cursor count) else foundIn sequence count := by
  rw [foundIn, List.range_succ, List.foldl_append]
  rfl

def rowsOf (found : RowLimit.Found) : Option RowLimit := found.limit.map fun limit => ⟨limit, found.skipped.getD 0⟩

theorem ofTokens_eq (sequence : TokenSequence) :
    RowLimit.ofTokens sequence = rowsOf (foundIn sequence sequence.size) := by
  rw [RowLimit.ofTokens, Cursor.cursors_eq_map, List.foldl_filter, List.foldl_map]
  rfl

theorem foundIn_silent (annotated : annotate limits lexemes = .ok sequence) (inside : place < sequence.size)
    (limit : ∀ n, ¬sequence.Counts "LIMIT" place n) (offset : ∀ n, ¬sequence.Counts "OFFSET" place n) :
    foundIn sequence (place + 1) = foundIn sequence place := by
  rw [foundIn_succ]
  split
  next integer =>
    unfold RowLimit.Found.add
    split
    · rfl
    next n value =>
      rw [if_neg, if_neg]
      · intro last
        exact offset n ((counts_iff annotated inside (by decide)).mpr ⟨integer, value, last⟩)
      · intro last
        exact limit n ((counts_iff annotated inside (by decide)).mpr ⟨integer, value, last⟩)
  next => rfl

/-- The first number after LIMIT is the limit, and a later one counts only after a comma. -/
theorem foundIn_limit (annotated : annotate limits lexemes = .ok sequence) (inside : place < sequence.size)
    (counts : sequence.Counts "LIMIT" place n) :
    ((foundIn sequence place).limit = none →
        foundIn sequence (place + 1) = { foundIn sequence place with limit := some n }) ∧
      ∀ m, (foundIn sequence place).limit = some m →
        (sequence.AfterComma place → foundIn sequence (place + 1) = ⟨some n, some m⟩) ∧
          (¬sequence.AfterComma place → foundIn sequence (place + 1) = foundIn sequence place) := by
  obtain ⟨integer, value, last⟩ := (counts_iff annotated inside (by decide)).mp counts
  have comma := isComma_previous_iff inside
  rw [foundIn_succ, if_pos integer]
  unfold RowLimit.Found.add
  simp only [value, if_pos last]
  refine ⟨?_, ?_⟩
  · intro none
    simp [none]
  · intro m some
    refine ⟨?_, ?_⟩
    · intro after
      simp [some, comma.mpr after]
    · intro other
      simp [some, mt comma.mp other]

theorem foundIn_offset (annotated : annotate limits lexemes = .ok sequence) (inside : place < sequence.size)
    (counts : sequence.Counts "OFFSET" place n) :
    foundIn sequence (place + 1) = { foundIn sequence place with skipped := some n } := by
  obtain ⟨integer, value, last⟩ := (counts_iff annotated inside (by decide)).mp counts
  rw [foundIn_succ, if_pos integer]
  unfold RowLimit.Found.add
  simp only [value]
  rw [if_neg, if_pos last]
  rw [last]
  decide

theorem foundIn_latest (annotated : annotate limits lexemes = .ok sequence) (inside : place ≤ sequence.size) :
    Latest sequence.SetsLimit place (foundIn sequence place).limit ∧
      Latest sequence.SetsSkipped place (foundIn sequence place).skipped := by
  induction place with
  | zero => exact ⟨latest_start _, latest_start _⟩
  | succ place ih =>
    obtain ⟨limit, skipped⟩ := ih (Nat.le_of_succ_le inside)
    by_cases counts : ∃ n, sequence.Counts "LIMIT" place n
    · obtain ⟨n, counts⟩ := counts
      obtain ⟨first, later⟩ := foundIn_limit annotated inside counts
      have noOffset (m : Nat) (offset : sequence.Counts "OFFSET" place m) : False :=
        absurd (offset.word_unique counts) (by decide)
      cases before : (foundIn sequence place).limit with
      | none =>
        rw [before] at limit
        rw [first before]
        refine ⟨latest_takes ⟨counts, .inr (no_limit_iff.mp limit)⟩, Latest.keeps skipped ?_⟩
        rintro m (offset | ⟨-, -, latest⟩)
        · exact noOffset m offset
        · cases Latest.unique SetsLimit.unique limit latest
      | some m =>
        rw [before] at limit
        by_cases comma : sequence.AfterComma place
        · rw [(later m before).1 comma]
          exact ⟨latest_takes ⟨counts, .inl comma⟩, latest_takes (.inr ⟨⟨n, counts⟩, comma, limit⟩)⟩
        · rw [(later m before).2 comma]
          refine ⟨Latest.keeps (before ▸ limit) ?_, Latest.keeps skipped ?_⟩
          · rintro other ⟨-, after | first⟩
            · exact comma after
            · obtain ⟨earlier, less, sets, -⟩ := limit
              exact first earlier less m sets.1
          · rintro other (offset | ⟨-, after, -⟩)
            · exact noOffset other offset
            · exact comma after
    · have noLimit (n : Nat) (sets : sequence.SetsLimit place n) : False := counts ⟨n, sets.1⟩
      by_cases offset : ∃ n, sequence.Counts "OFFSET" place n
      · obtain ⟨n, offset⟩ := offset
        rw [foundIn_offset annotated inside offset]
        exact ⟨Latest.keeps limit noLimit, latest_takes (.inl offset)⟩
      · rw [foundIn_silent annotated inside (not_exists.mp counts) (not_exists.mp offset)]
        refine ⟨Latest.keeps limit noLimit, Latest.keeps skipped ?_⟩
        rintro m (counted | ⟨counted, -⟩)
        · exact offset ⟨m, counted⟩
        · exact counts counted

section Clause
variable {token number : Token}

theorem governs_next (stored : sequence.tokens[place]? = some token) (names : token.Names word)
    (counted : Keyword.isInsignificant word = false) :
    IsLast sequence.sides sequence.words (place + 1) (some ⟨word, place⟩) := by
  apply IsLast.speaks
  rw [TokenSequence.words, List.getElem?_map, Array.getElem?_toList, stored, Option.map_some, Token.significant?,
    Token.isKeyword, names.1, names.2, counted]
  rfl

/-- A token that is no keyword and no parenthesis leaves the keyword that governs. -/
theorem governs_on {mark : Option KeywordMark} (last : IsLast sequence.sides sequence.words place mark)
    (stored : sequence.tokens[place]? = some token) (plain : token.kind ≠ .keyword) (side : token.side? = none) :
    IsLast sequence.sides sequence.words (place + 1) mark := by
  apply last.passes
  · rw [TokenSequence.words, List.getElem?_map, Array.getElem?_toList, stored, Option.map_some, Token.significant?,
      Token.isKeyword]
    simp [plain]
  · rw [TokenSequence.sides, List.getElem?_map, Array.getElem?_toList, stored, Option.map_some, side]
    simp

theorem Number.side? (counted : number.Number n) : number.side? = none := by
  simp [Token.side?, Token.isPunctuation, counted.1]

theorem counts_of_governed {keyword : Nat} (last : IsLast sequence.sides sequence.words place (some ⟨word, keyword⟩))
    (stored : sequence.tokens[place]? = some number) (counted : number.Number n) : sequence.Counts word place n :=
  ⟨⟨number, stored, counted.1, counted.2.1⟩, counted.2.2, keyword, last⟩

theorem foundIn_other (annotated : annotate limits lexemes = .ok sequence)
    (stored : sequence.tokens[place]? = some token)
    (other : token.kind ≠ .integer) : foundIn sequence (place + 1) = foundIn sequence place := by
  have silent (word : String) (n : Nat) : ¬sequence.Counts word place n := by
    intro counts
    obtain ⟨token', stored', kind, -⟩ := counts.number
    obtain rfl := Option.some.inj (stored.symm.trans stored')
    exact other kind
  exact foundIn_silent annotated (Array.getElem?_eq_some_iff.mp stored).1 (silent _) (silent _)

theorem not_afterComma (stored : sequence.tokens[place]? = some token) (other : token.kind ≠ .punctuation) :
    ¬sequence.AfterComma (place + 1) := by
  rintro ⟨before, token', same, stored', comma⟩
  obtain rfl := Nat.succ.inj same
  obtain rfl := Option.some.inj (stored.symm.trans stored')
  simp only [Token.isPunctuation, Bool.and_eq_true, beq_iff_eq] at comma
  exact other comma.1

/-- `LIMIT n` gives the limit only when there is none yet. -/
theorem foundIn_first (annotated : annotate limits lexemes = .ok sequence)
    (stored : sequence.tokens[place]? = some token) (names : token.Names "LIMIT")
    (there : sequence.tokens[place + 1]? = some number) (counted : number.Number n) :
    foundIn sequence (place + 2) =
      { foundIn sequence place with limit := some ((foundIn sequence place).limit.getD n) } := by
  have kind := names.1
  have counts := counts_of_governed (governs_next stored names (by decide)) there counted
  obtain ⟨first, later⟩ := foundIn_limit annotated (Array.getElem?_eq_some_iff.mp there).1 counts
  rw [foundIn_other annotated stored (by simp [kind])] at first later
  cases before : (foundIn sequence place).limit with
  | none => exact first before
  | some m =>
    rw [(later m before).2 (not_afterComma stored (by simp [kind])), Option.getD_some, ← before]

end Clause

/-- The row limit of a statement that ends in a clause, by what its other tokens give. -/
def clauseRows (found : RowLimit.Found) : RowClause → RowLimit
  | .limit n => ⟨found.limit.getD n, found.skipped.getD 0⟩
  | .offset n m => ⟨found.limit.getD n, m⟩
  | .comma m n => ⟨n, found.limit.getD m⟩

theorem ofTokens_ending (annotated : annotate limits lexemes = .ok sequence) {front ending : List Token}
    {clause : RowClause}
    (parts : sequence.tokens.toList = front ++ ending) (written : clause.Written ending) :
    RowLimit.ofTokens sequence = some (clauseRows (foundIn sequence front.length) clause) := by
  have size : sequence.size = front.length + ending.length := by
    rw [TokenSequence.size, ← Array.length_toList, parts, List.length_append]
  have stored (index : Nat) : sequence.tokens[front.length + index]? = ending[index]? := by
    rw [← Array.getElem?_toList, parts, List.getElem?_append_right (Nat.le_add_right _ _), Nat.add_sub_cancel_left]
  rw [ofTokens_eq, size]
  cases written with
  | limit first second =>
    have rows := foundIn_first annotated (stored 0) first (stored 1) second
    change rowsOf (foundIn sequence (front.length + 0 + 2)) = _
    rw [rows]
    rfl
  | offset first second third fourth =>
    have rows := foundIn_first annotated (stored 0) first (stored 1) second
    have kind := third.1
    have counts := counts_of_governed (governs_next (stored 2) third (by decide)) (stored 3) fourth
    have last := foundIn_offset annotated (Array.getElem?_eq_some_iff.mp (stored 3)).1 counts
    rw [foundIn_other annotated (stored 2) (by simp [kind]), rows] at last
    change rowsOf (foundIn sequence (front.length + 3 + 1)) = _
    rw [last]
    rfl
  | @comma keyword skipped separator number m n first second third fourth =>
    have rows := foundIn_first annotated (stored 0) first (stored 1) second
    have kind : separator.kind = .punctuation ∧ separator.value = "," := by
      simpa only [Token.isPunctuation, Bool.and_eq_true, beq_iff_eq] using third
    have governs := governs_on (governs_on (governs_next (stored 0) first (by decide)) (stored 1)
      (by simp [second.1]) (Number.side? second)) (stored 2) (by simp [kind.1])
      (by simp [Token.side?, Token.isPunctuation, kind.2])
    have counts := counts_of_governed governs (stored 3) fourth
    obtain ⟨-, later⟩ := foundIn_limit annotated (Array.getElem?_eq_some_iff.mp (stored 3)).1 counts
    rw [foundIn_other annotated (stored 2) (by simp [kind.1]), rows] at later
    have last := (later _ rfl).1 ⟨_, _, rfl, stored 2, third⟩
    change rowsOf (foundIn sequence (front.length + 3 + 1)) = _
    rw [last]
    rfl

/-- The clause at the end counts when the numbers before it leave it undisturbed. -/
theorem clauseRows_eq_iff (annotated : annotate limits lexemes = .ok sequence) {count : Nat}
    (inside : count ≤ sequence.size)
    (clause : RowClause) : clauseRows (foundIn sequence count) clause = clause.rows ↔
        clause.Undisturbed sequence count := by
  obtain ⟨limit, skipped⟩ := foundIn_latest annotated inside
  have kept (n : Nat) := Latest.getD_eq_iff SetsLimit.unique limit n n
  have none_skipped := Latest.getD_eq_iff SetsSkipped.unique skipped 0 0
  simp only [true_and] at kept none_skipped
  cases clause with
  | limit n => simp only [clauseRows, RowClause.rows, RowClause.Undisturbed, RowLimit.mk.injEq, kept, none_skipped]
  | offset n m => simp only [clauseRows, RowClause.rows, RowClause.Undisturbed, RowLimit.mk.injEq, kept, and_true]
  | comma m n => simp only [clauseRows, RowClause.rows, RowClause.Undisturbed, RowLimit.mk.injEq, kept, true_and]

/-- The row limit of a statement is given by the numbers after LIMIT and OFFSET at every depth.
A clause at the end of the statement counts exactly when no number before it disturbs it. -/
theorem rowLimit_iff {text : List Char} (read : tokenize limits text = .ok sequence) :
    (RowLimit.ofTokens sequence = none ↔ ∀ place n, ¬sequence.Counts "LIMIT" place n) ∧
      (∀ limit skipped, RowLimit.ofTokens sequence = some ⟨limit, skipped⟩ ↔
        Latest sequence.SetsLimit sequence.size (some limit) ∧
          (skipped = 0 ∧ Latest sequence.SetsSkipped sequence.size none ∨
            Latest sequence.SetsSkipped sequence.size (some skipped))) ∧
      ∀ (front ending : List Token) (clause : RowClause), sequence.tokens.toList = front ++ ending →
        clause.Written ending →
          (RowLimit.ofTokens sequence = some clause.rows ↔ clause.Undisturbed sequence front.length) := by
  obtain ⟨lexemes, -, -, annotated⟩ := tokenize_ok_iff.mp read
  obtain ⟨limit, skipped⟩ := foundIn_latest annotated (Nat.le_refl sequence.size)
  refine ⟨?_, ?_, ?_⟩
  · rw [ofTokens_eq, rowsOf, Option.map_eq_none_iff, Latest.eq_iff SetsLimit.unique limit, no_limit_iff]
    constructor
    · intro none place n counts
      obtain ⟨token, stored, -⟩ := counts.number
      exact none place (Array.getElem?_eq_some_iff.mp stored).1 n counts
    · intro none place _
      exact none place
  · intro rows rest
    rw [ofTokens_eq, rowsOf, Option.map_eq_some_iff, ← Latest.eq_iff SetsLimit.unique limit,
      ← eq_comm (a := 0), ← Latest.getD_eq_iff SetsSkipped.unique skipped]
    simp only [RowLimit.mk.injEq]
    constructor
    · rintro ⟨n, found, rfl, rfl⟩
      exact ⟨found, rfl⟩
    · rintro ⟨found, same⟩
      exact ⟨rows, found, rfl, same⟩
  · intro front ending clause parts written
    have size : front.length ≤ sequence.size := by
      rw [TokenSequence.size, ← Array.length_toList, parts, List.length_append]
      exact Nat.le_add_right _ _
    rw [ofTokens_ending annotated parts written, Option.some.injEq, clauseRows_eq_iff annotated size]

/-- A sub-query has a limit of its own, and it is the one that counts. -/
theorem rowLimit_iff_nested :
    ∃ sequence, tokenize {} "SELECT a FROM t WHERE b IN (SELECT c FROM u LIMIT 5) LIMIT 10".toList = .ok sequence ∧
      RowLimit.ofTokens sequence = some ⟨5, 0⟩ ∧ Latest sequence.SetsLimit sequence.size (some 5) ∧
      ¬(RowClause.limit 10).Undisturbed sequence 15 := by
  have seen : (tokenize {} "SELECT a FROM t WHERE b IN (SELECT c FROM u LIMIT 5) LIMIT 10".toList).toOption.map
      (fun sequence => (RowLimit.ofTokens sequence, sequence.tokens.size,
        (sequence.tokens.toList.drop 15).map fun token => (token.kind, token.normalized, token.value))) =
      some (some ⟨5, 0⟩, 17, [(.keyword, "LIMIT", "LIMIT"), (.integer, "10", "10")]) := by
    decide +kernel
  cases read : tokenize {} "SELECT a FROM t WHERE b IN (SELECT c FROM u LIMIT 5) LIMIT 10".toList with
  | error error => rw [read] at seen; cases seen
  | ok sequence =>
    rw [read] at seen
    simp only [Except.toOption, Option.map_some, Option.some.injEq, Prod.mk.injEq] at seen
    obtain ⟨rows, size, tokens⟩ := seen
    obtain ⟨-, counted, ending⟩ := rowLimit_iff read
    obtain ⟨keyword, number, last, kind, word, kind', value⟩ :
        ∃ keyword number : Token, sequence.tokens.toList.drop 15 = [keyword, number] ∧ keyword.kind = .keyword ∧
          keyword.normalized = "LIMIT" ∧ number.kind = .integer ∧ number.value = "10" := by
      generalize sequence.tokens.toList.drop 15 = rest at tokens
      obtain _ | ⟨keyword, _ | ⟨number, _ | more⟩⟩ := rest <;> simp at tokens
      exact ⟨keyword, number, rfl, tokens.1.1, tokens.1.2.1, tokens.2.1, tokens.2.2.2⟩
    refine ⟨sequence, rfl, rows, ((counted 5 0).mp rows).1, ?_⟩
    intro undisturbed
    have parts : sequence.tokens.toList = sequence.tokens.toList.take 15 ++ [keyword, number] := by
      rw [← last, List.take_append_drop]
    have length : (sequence.tokens.toList.take 15).length = 15 := by simp [size]
    have written : (RowClause.limit 10).Written [keyword, number] :=
      .limit ⟨kind, word⟩ ⟨kind', by rw [value]; decide, by decide⟩
    rw [← length] at undisturbed
    cases rows.symm.trans ((ending _ _ _ parts written).mpr undisturbed)

end QueryFacts.Proofs.RowLimits

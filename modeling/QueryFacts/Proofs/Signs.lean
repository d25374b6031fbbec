import QueryFacts.Proofs.SelectList
import QueryFacts.Proofs.WellNested

/-! What the annotation says of each lexeme apart from positions: the clause that it stands
in, and the parenthesis that it is or stands in. All of this depends on a small part of the
state of the annotation, which moves on its own from lexeme to lexeme. -/

namespace QueryFacts

/-- A token without its positions. -/
structure Sign where
  lexeme : Lexeme
  normalized : String
  /-- The last significant keyword before it. -/
  clause : Option String
  paren : Option ParenRole
  /-- The innermost open parenthesis around it. -/
  around : Option ParenRole
  /-- The keyword of the clause stands in front of that parenthesis. It is not told of parentheses. -/
  outside : Bool

/-- An open parenthesis, with what holds again after it is closed. -/
structure Frame where
  kind : ParenKind
  clause : Option String
  outside : Bool

/-- The state of the annotation without positions. -/
structure Context where
  last : Option Lexeme := none
  clause : Option String := none
  outside : Bool := false
  opened : List Frame := []
  headers : List Nat := []
  awaitsColumns : Bool := false

namespace Context

/-- The role of a parenthesis that opens now. -/
def parenKind (context : Context) : ParenKind :=
  match context.last with
  | none => .nestedFunction
  | some before =>
    let inHeader := context.headers.head? == some context.opened.length
    if before.isKeyword && Keyword.precedesSubquery before.normalized then .subquery
    else if inHeader && before.isKeyword && before.normalized == "AS" then .withQuery
    else if inHeader && before.kind == .name then .withColumns
    else if context.awaitsColumns && context.opened.isEmpty && before.kind == .name
        && !context.clause.any (· == "SELECT") then .createTableColumns
    else if before.isKeyword && Keyword.precedesColumns before.normalized then .columnDefinition
    else if before.isPunctuation "," && context.opened.head?.all
        (fun frame => frame.kind = .subquery ∨ frame.kind = .columnDefinition ∨ frame.kind = .withQuery) then
      .columnDefinition
    else .nestedFunction

def headersAfter (context : Context) (word : String) : List Nat :=
  if word == "WITH" then
    if context.last.all (·.isPunctuation "(") then context.opened.length :: context.headers else context.headers
  else if Keyword.startsStatement word && context.headers.head? == some context.opened.length then
    context.headers.drop 1
  else context.headers

def step (context : Context) (lexeme : Lexeme) : Context :=
  match lexeme.side? with
  | some .opening => { context with
      last := some lexeme
      outside := context.clause.isSome
      opened := ⟨context.parenKind, context.clause, context.outside⟩ :: context.opened
      awaitsColumns := context.awaitsColumns && !(context.parenKind == ParenKind.createTableColumns) }
  | some .closing =>
    match context.opened with
    | [] => { context with last := some lexeme }
    | frame :: outer => { context with
        last := some lexeme
        clause := frame.clause
        outside := frame.outside
        opened := outer
        headers := context.headers.dropWhile (outer.length < ·) }
  | none =>
    if lexeme.isKeyword then { context with
      last := some lexeme
      clause := if Keyword.isInsignificant lexeme.normalized then context.clause else some lexeme.normalized
      outside := if Keyword.isInsignificant lexeme.normalized then context.outside else false
      headers := context.headersAfter lexeme.normalized }
    else { context with last := some lexeme }

def role (frame : Frame) : ParenRole := ⟨frame.kind, .opening⟩

/-- What is said of a lexeme that comes now. -/
def sign (context : Context) (lexeme : Lexeme) : Sign :=
  match lexeme.side?, context.opened with
  | some .opening, opened =>
    ⟨lexeme, lexeme.normalized, context.clause, some ⟨context.parenKind, .opening⟩, opened.head?.map role, false⟩
  | some .closing, frame :: outer =>
    ⟨lexeme, lexeme.normalized, context.clause, some ⟨frame.kind, .closing⟩, outer.head?.map role, false⟩
  | _, opened => ⟨lexeme, lexeme.normalized, context.clause, none, opened.head?.map role, context.outside⟩

def after (context : Context) (lexemes : List Lexeme) : Context := lexemes.foldl step context

def signs (context : Context) : List Lexeme → List Sign
  | [] => []
  | lexeme :: rest => context.sign lexeme :: (context.step lexeme).signs rest

/-- The context in which a statement begins. -/
def start (lexemes : List Lexeme) : Context := { awaitsColumns := Lexeme.isCreateTable lexemes }

theorem last_step (context : Context) (lexeme : Lexeme) : (context.step lexeme).last = some lexeme := by
  unfold step
  repeat' split
  all_goals rfl

theorem signs_append (context : Context) (first rest : List Lexeme) :
    context.signs (first ++ rest) = context.signs first ++ (context.after first).signs rest := by
  induction first generalizing context with
  | nil => rfl
  | cons lexeme first ih => exact congrArg (context.sign lexeme :: ·) (ih (context.step lexeme))

theorem after_append (context : Context) (first rest : List Lexeme) :
    context.after (first ++ rest) = (context.after first).after rest := List.foldl_append

theorem lexemes_signs (context : Context) (lexemes : List Lexeme) :
    (context.signs lexemes).map (·.lexeme) = lexemes := by
  induction lexemes generalizing context with
  | nil => rfl
  | cons lexeme rest ih =>
    have same : (context.sign lexeme).lexeme = lexeme := by
      unfold sign
      split <;> rfl
    rw [signs, List.map_cons, same, ih]

theorem signs_getElem? (context : Context) (lexemes : List Lexeme) (index : Nat) :
    (context.signs lexemes)[index]? = lexemes[index]?.map (context.after (lexemes.take index)).sign := by
  induction lexemes generalizing context index with
  | nil => rfl
  | cons lexeme rest ih =>
    cases index with
    | zero => rfl
    | succ index => exact ih (context.step lexeme) index

end Context

/-- What the annotation says of the token at a cursor. -/
def Cursor.sign? (cursor : Cursor) : Option Sign := cursor.token?.map fun token => {
  lexeme := Proofs.SelectList.lexemeOf token
  normalized := token.normalized
  clause := token.lastKeyword.map (·.word)
  paren := token.paren
  around := cursor.enclosing.paren?
  outside := token.paren.isNone && match token.enclosing, token.lastKeyword with
    | some opening, some mark => decide (mark.position < opening)
    | _, _ => false }

end QueryFacts

namespace QueryFacts.Proofs.Signs
open Nesting Parenthesis NestingRun WellNested SelectList

/-- The keyword stands in front of the innermost open parenthesis. -/
def marksOutside (mark : Option KeywordMark) (opened : List OpenParen) : Bool :=
  match opened.head?.map (·.position), mark with
  | some opening, some mark => decide (mark.position < opening)
  | _, _ => false

def frames : List OpenParen → List Frame
  | [] => []
  | paren :: outer => ⟨paren.kind, paren.lastKeyword.map (·.word), marksOutside paren.lastKeyword outer⟩ :: frames outer

def contextOf (state : Nesting) : Context where
  last := state.tokens.back?.map lexemeOf
  clause := state.lastKeyword.map (·.word)
  outside := marksOutside state.lastKeyword state.opened
  opened := frames state.opened
  headers := state.headers
  awaitsColumns := state.awaitsColumns

theorem length_frames (opened : List OpenParen) : (frames opened).length = opened.length := by
  induction opened with
  | nil => rfl
  | cons paren outer ih => exact congrArg (· + 1) ih

/-- The keywords of the state stand in front of what comes next. -/
structure Marked (state : Nesting) : Prop where
  keyword : ∀ mark ∈ state.lastKeyword, mark.position < state.tokens.size
  opened : ∀ paren ∈ state.opened, paren.position < state.tokens.size ∧
    ∀ mark ∈ paren.lastKeyword, mark.position < state.tokens.size

section Run

variable {limits : Limits} {lexemes : List Lexeme} {state after : Nesting} {lexeme : Lexeme} {count : Nat}

theorem Marked.moved (marked : Marked state) (move : Move limits state lexeme after) : Marked after := by
  obtain ⟨keyword, opened⟩ := marked
  have size := move.size
  have later {place : Nat} (before : place < state.tokens.size) : place < after.tokens.size :=
    size ▸ Nat.lt_succ_of_lt before
  have here : state.tokens.size < after.tokens.size := size ▸ Nat.lt_succ_self _
  have kept (paren : OpenParen) (member : paren ∈ state.opened) : paren.position < after.tokens.size ∧
      ∀ mark ∈ paren.lastKeyword, mark.position < after.tokens.size :=
    ⟨later (opened paren member).1, fun mark inside => later ((opened paren member).2 mark inside)⟩
  cases move with
  | opening side shallow =>
    refine ⟨fun mark inside => later (keyword mark inside), fun paren member => ?_⟩
    rcases List.mem_cons.mp member with rfl | old
    · exact ⟨here, fun mark inside => later (keyword mark inside)⟩
    · exact kept paren old
  | @closing paren outer side same =>
    have inside : paren ∈ state.opened := same ▸ List.mem_cons_self
    exact ⟨(kept paren inside).2, fun other member => kept other (same ▸ List.mem_cons_of_mem _ member)⟩
  | keyword side keyword' =>
    refine ⟨fun mark inside => ?_, kept⟩
    simp only [passKeyword] at inside
    split at inside
    · exact later (keyword mark inside)
    · cases inside
      exact here
  | plain side plain => exact ⟨fun mark inside => later (keyword mark inside), kept⟩

theorem marked_of_reaches (reached : Reaches limits lexemes count state) : Marked state := by
  induction reached with
  | start => exact ⟨nofun, nofun⟩
  | next reached found move ih => exact ih.moved move

theorem normalized_lexemeOf (reached : Reaches limits lexemes count state) {index : Nat} {token : Token}
    (found : state.tokens[index]? = some token) :
    lexemes[index]? = some (lexemeOf token) ∧ token.normalized = (lexemeOf token).normalized := by
  obtain ⟨lexeme, before, after, there, -, -, -, alone⟩ := reached.token found
  have writes := (addedToken_writes before lexeme).ofAlone alone
  have same : lexemeOf token = lexeme := by
    cases lexeme
    simp only [lexemeOf, writes.kind, writes.value, writes.quote, writes.spaceBefore]
  rw [same]
  exact ⟨there, writes.normalized⟩

theorem parenKind_contextOf (reached : Reaches limits lexemes count state) :
    (contextOf state).parenKind = state.parenKind := by
  have kinds : (contextOf state).opened.head?.all
      (fun frame => frame.kind = .subquery ∨ frame.kind = .columnDefinition ∨ frame.kind = .withQuery) =
        state.opened.head?.all
          (fun paren => paren.kind = .subquery ∨ paren.kind = .columnDefinition ∨ paren.kind = .withQuery) := by
    simp only [contextOf]
    cases state.opened <;> rfl
  have empty : (contextOf state).opened.isEmpty = state.opened.isEmpty := by
    simp only [contextOf]
    cases state.opened <;> rfl
  have clause : (contextOf state).clause.any (· == "SELECT") = state.lastKeyword.any (·.word == "SELECT") := by
    simp only [contextOf]
    cases state.lastKeyword <;> rfl
  have length : (contextOf state).opened.length = state.depth := length_frames _
  unfold Context.parenKind Nesting.parenKind
  rw [kinds, empty, clause, length]
  simp only [contextOf]
  cases last : state.tokens.back? with
  | none => rfl
  | some token =>
    rw [Array.back?_eq_getElem?] at last
    simp only [Option.map_some, ← (normalized_lexemeOf reached last).2]
    rfl

theorem step_contextOf (reached : Reaches limits lexemes count state) (move : Move limits state lexeme after) :
    contextOf after = (contextOf state).step lexeme := by
  have marked := marked_of_reaches reached
  have kind := parenKind_contextOf reached
  cases move with
  | opening side shallow =>
    have outside :
        marksOutside state.lastKeyword (⟨state.tokens.size, state.parenKind, state.lastKeyword⟩ :: state.opened) =
        (state.lastKeyword.map (·.word)).isSome := by
      cases mark : state.lastKeyword with
      | none => rfl
      | some mark' => simp [marksOutside, marked.keyword mark' mark]
    simp only [Context.step, side, kind]
    simp only [contextOf, outside, Array.back?_push, Option.map_some]
    rfl
  | @closing paren outer side opened =>
    have frames : (contextOf state).opened =
        ⟨paren.kind, paren.lastKeyword.map (·.word), marksOutside paren.lastKeyword outer⟩ :: frames outer := by
      simp only [contextOf, opened]
      rfl
    simp only [Context.step, side, frames, length_frames]
    simp only [contextOf, Array.back?_push, Option.map_some]
    rfl
  | keyword side keyword =>
    have outside : marksOutside (some ⟨lexeme.normalized, state.tokens.size⟩) state.opened = false := by
      cases opened : state.opened with
      | nil => rfl
      | cons paren outer =>
        have before := (marked.opened paren (opened ▸ List.mem_cons_self)).1
        simp [marksOutside, Nat.le_of_lt before]
    have headers : (contextOf state).headersAfter lexeme.normalized = state.headersAfter lexeme.normalized := by
      have last : (contextOf state).last.all (·.isPunctuation "(") = state.tokens.back?.all (·.isPunctuation "(") := by
        simp only [contextOf]
        cases state.tokens.back? <;> rfl
      have length : (contextOf state).opened.length = state.depth := length_frames _
      simp only [Context.headersAfter, Nesting.headersAfter, last, length]
      rfl
    have normalized : (state.tokenOf lexeme).normalized = lexeme.normalized := rfl
    simp only [Context.step, side, keyword, if_true, headers]
    simp only [contextOf, passKeyword, Array.back?_push, Option.map_some, normalized]
    split
    · rfl
    · simp only [outside, tokenOf, Option.map_some]
      rfl
  | plain side plain =>
    simp only [Context.step, side, plain, Bool.false_eq_true, if_false]
    simp only [contextOf, Array.back?_push, Option.map_some]
    rfl

theorem contextOf_reaches (reached : Reaches limits lexemes count state) :
    contextOf state = (Context.start lexemes).after (lexemes.take count) := by
  induction reached with
  | start => rfl
  | @next count before after lexeme reached found move ih =>
    rw [step_contextOf reached move, ih, List.take_add_one, found, Context.after_append]
    rfl

/-- The parentheses that were open keep their roles. -/
theorem role_head? {final : Nesting} (ends : Reaches limits lexemes lexemes.length final)
    (reached : Reaches limits lexemes count state) {opened : List OpenParen}
    (some' : ∀ paren ∈ opened, paren ∈ state.opened) :
    (opened.head?.map (·.position)).bind (roleIn final.tokens) = (frames opened).head?.map Context.role := by
  cases opened with
  | nil => rfl
  | cons paren outer =>
    have member := some' paren List.mem_cons_self
    have before := (opened_open reached).lt_place (List.mem_map_of_mem member)
    simp only [List.head?_cons, Option.map_some, Option.bind_some, frames]
    rw [role_kept reached ends reached.count_le before]
    exact opened_role reached paren member

/-- Every lexeme is annotated as its context says. -/
theorem sign?_cursor {sequence : TokenSequence} (annotated : annotate limits lexemes = .ok sequence) (index : Nat) :
    (sequence.cursor index).sign? = ((Context.start lexemes).signs lexemes)[index]? := by
  obtain ⟨final, ends, -, rfl⟩ := annotate_ok_iff.mp annotated
  rw [Context.signs_getElem?, Cursor.sign?, Cursor.token?_cursor]
  cases found : final.tokens[index]? with
  | none =>
    have outside : lexemes[index]? = none := by
      rw [List.getElem?_eq_none_iff, ← ends.size]
      exact Array.getElem?_eq_none_iff.mp found
    rw [outside]
    rfl
  | some token =>
    obtain ⟨lexeme, before, after, there, reached, move, -, alone⟩ := ends.token found
    obtain ⟨there', normalized⟩ := normalized_lexemeOf ends found
    obtain rfl : lexeme = lexemeOf token := Option.some.inj (there.symm.trans there')
    have keyword : token.lastKeyword = before.lastKeyword := by
      refine (congrArg Token.lastKeyword alone).trans ?_
      unfold addedToken
      split <;> rfl
    have enclosing : token.enclosing = (around before (lexemeOf token)).head?.map (·.position) := by
      refine (congrArg Token.enclosing alone).trans ((addedToken_enclosing move).trans ?_)
      rw [positions, List.head?_map]
    have paren : token.paren = (addedToken before (lexemeOf token)).paren :=
      (congrArg Token.paren alone : token.alone.paren = _)
    have inside : ((⟨final.tokens⟩ : TokenSequence).cursor index).enclosing.paren? =
        (frames (around before (lexemeOf token))).head?.map Context.role := by
      have some' : ∀ paren ∈ around before (lexemeOf token), paren ∈ before.opened := by
        unfold around
        split
        · exact fun paren member => List.mem_of_mem_tail member
        · exact fun paren member => member
      rw [← role_head? ends reached some', ← enclosing, Cursor.enclosing, Cursor.token?_cursor, found, Option.bind_some]
      cases token.enclosing <;> rfl
    rw [there, ← contextOf_reaches reached, Option.map_some, Option.map_some, inside, keyword,
      enclosing, paren, normalized]
    cases move with
    | opening side shallow =>
      simp only [addedToken, Context.sign, side, around, parenKind_contextOf reached, openingToken]
      rfl
    | closing side opened =>
      simp only [addedToken, Context.sign, side, around, opened, closingToken, contextOf, frames]
      rfl
    | keyword side keyword' =>
      simp only [addedToken, Context.sign, side, around, contextOf]
      rfl
    | plain side plain =>
      simp only [addedToken, Context.sign, side, around, contextOf]
      rfl

/-- The tokens of a statement are those of its lexemes, in order. -/
theorem lexemes_of_annotated {sequence : TokenSequence} (annotated : annotate limits lexemes = .ok sequence) :
    sequence.tokens.toList.map lexemeOf = lexemes := by
  refine List.ext_getElem? fun index => ?_
  have told := congrArg (Option.map Sign.lexeme) (sign?_cursor annotated index)
  rw [← List.getElem?_map, Context.lexemes_signs, Cursor.sign?, Cursor.token?_cursor, Option.map_map] at told
  rw [List.getElem?_map, Array.getElem?_toList]
  exact told

theorem map_between {sequence : TokenSequence} (annotated : annotate limits lexemes = .ok sequence)
    {front inner rest : List Lexeme}
    {opening closing : Lexeme} (whole : lexemes = front ++ opening :: (inner ++ closing :: rest)) :
    (sequence.between front.length (front.length + inner.length + 1)).map lexemeOf = inner := by
  have parts :
      front ++ opening :: (inner ++ closing :: rest) = (front ++ [opening]) ++ inner ++ (closing :: rest) := by simp
  have cut : ((front ++ [opening]) ++ inner).length = front.length + inner.length + 1 := by
    simp only [List.length_append, List.length_singleton]
    omega
  rw [TokenSequence.between, List.map_drop, List.map_take, lexemes_of_annotated annotated,
    whole, parts, List.take_left' cut, List.drop_left' (by simp)]

end Run

end QueryFacts.Proofs.Signs

import QueryFacts.Column
import QueryFacts.Proofs.Spots

/-! The mentions of columns as they look at the lexemes of a statement. Besides the clause and the
neighbours of a name, what stands in front of the parenthesis around it counts. -/

namespace QueryFacts

namespace Lexeme

def isWildcard (lexeme : Lexeme) : Bool := lexeme.kind == .wildcard

/-- What stands in front of each parenthesis that is open after these lexemes, which come nearest first. -/
def openings : List Lexeme → List (List Lexeme)
  | [] => []
  | last :: before =>
    match last.side? with
    | some .opening => before :: openings before
    | some .closing => (openings before).tail
    | none => openings before

end Lexeme

namespace Spot

/-- The lexeme in front of the parenthesis around a lexeme that is none itself. -/
def opener (spot : Spot) : Option Lexeme := (Lexeme.openings spot.before).head?.bind List.head?

def isIn (kind : ParenKind) (spot : Spot) : Bool := spot.context.opened.head?.any (·.kind = kind)

/-- The clause of a name in a place for columns. -/
def section? (spot : Spot) : Option Section :=
  if spot.clause = "INTO" then
    if spot.context.outside && spot.previous.any Lexeme.isMark then some .insert else none
  else if spot.clause = "USING" then
    if spot.opener.any (Lexeme.reads "USING") then some .join else none
  else if Keyword.precedesColumns spot.clause then Section.ofKeyword? spot.clause else none

/-- The unit of an interval. -/
def isIntervalUnit (spot : Spot) : Bool :=
  let sign := spot.before[1]?
  let before := if sign.any fun sign => sign.value == "-" || sign.value == "+" then spot.before[2]? else sign
  spot.previous.any (fun amount => amount.kind == .integer || amount.kind == .literal) &&
    before.any (Lexeme.reads "INTERVAL")

/-- In a place for columns, but none. `declared` are the places of aliases. -/
def isExcluded (declared : List Nat) (spot : Spot) : Bool :=
  spot.next.any Lexeme.isDot || spot.next.any (·.isPunctuation "(") || Keyword.isIgnoredFunction spot.here.normalized
    || spot.previous.any (Lexeme.reads "AS") || spot.previous.any (·.isPunctuation ")") ||
      spot.previous.any (·.value == "::")
    || spot.isIntervalUnit || declared.contains spot.before.length || spot.isIn .withColumns ||
      spot.isIn .createTableColumns

def mention? (aliasNames : List String) (declared : List Nat) (spot : Spot) : Option Column.Mention :=
  let spelled := Lexeme.nameBefore (spot.here :: spot.before)
  if spot.here.isWildcard then
    if spot.clause == "SELECT" && !spot.previous.any (·.isPunctuation "(") then some (.column spelled .select) else none
  else if !spot.here.isName || spot.isExcluded declared then none
  else spot.section?.map fun sec =>
    if !spelled.toList.contains '.' && aliasNames.contains spelled then .aliasName spelled sec else .column spelled sec

/-- A name that an alias may be declared by. -/
def mayDeclare (spot : Spot) : Bool :=
  spot.here.isName && !spot.next.any Lexeme.isDot && !spot.next.any (·.isPunctuation "(") &&
    Keyword.precedesColumns spot.clause
    && spot.clause != "USING"
    && (spot.previous.any (Lexeme.reads "AS") || spot.previous.any (·.isPunctuation ")") || spot.clause == "SELECT")

end Spot

end QueryFacts

namespace QueryFacts.Proofs.ColumnSpots
open Nesting NestingRun WellNested SelectList Signs Spots

section Parentheses

variable {limits : Limits} {lexemes : List Lexeme}

/-- The stack of open parentheses is where the lexemes put it. -/
theorem positions_openings {count : Nat} {state : Nesting} (reached : Reaches limits lexemes count state) :
    positions state.opened = (Lexeme.openings (lexemes.take count).reverse).map List.length := by
  induction reached with
  | start => rfl
  | @next count before after lexeme reached found move ih =>
    have size : (lexemes.take count).reverse.length = before.tokens.size := by
      rw [List.length_reverse, List.length_take, Nat.min_eq_left reached.count_le, reached.size]
    rw [List.take_add_one, found, Option.toList_some, List.reverse_concat]
    unfold Lexeme.openings
    cases move with
    | opening side shallow =>
      rw [side]
      simp only [positions, List.map_cons, size]
      exact congrArg _ ih
    | closing side opened =>
      rw [side]
      simp only [positions, opened, List.map_cons] at ih
      rw [List.map_tail, ← ih]
      rfl
    | keyword side keyword => rw [side]; exact ih
    | plain side plain => rw [side]; exact ih

/-- As many parentheses are open as the lexemes have opened and not closed. -/
theorem length_openings {part before : List Lexeme} {context : Context}
    (same : context.opened.length = (Lexeme.openings before).length) :
    (context.after part).opened.length = (Lexeme.openings (part.reverse ++ before)).length := by
  induction part generalizing before context with
  | nil => exact same
  | cons lexeme part ih =>
    rw [List.reverse_cons, List.append_assoc]
    refine @ih (lexeme :: before) (context.step lexeme) ?_
    unfold Context.step Lexeme.openings
    cases lexeme.side? with
    | none => dsimp only; split <;> exact same
    | some side =>
      cases side with
      | opening => exact congrArg (· + 1) same
      | closing =>
        rw [List.length_tail, ← same]
        cases context.opened <;> rfl

/-- Where no parenthesis is open, none has been left open. -/
theorem openings_eq_nil {part before : List Lexeme} {context : Context} (opened : context.opened = [])
    (level : Lexeme.openings before = [])
    (closed : (context.after part).opened = []) : Lexeme.openings (part.reverse ++ before) = [] := by
  have length := @length_openings part before context (by rw [opened, level]; rfl)
  rw [closed] at length
  exact List.length_eq_zero_iff.mp length.symm

variable {sequence : TokenSequence} (annotated : annotate limits lexemes = .ok sequence)
    {before after : List Lexeme} {here : Lexeme}
  (whole : lexemes = before.reverse ++ here :: after)
include annotated whole

theorem enclosing_eq (bare : here.side? ≠ some .closing) : (sequence.cursor before.length).enclosing =
    ((Lexeme.openings before).head?.map fun outer => sequence.cursor outer.length).getD (Cursor.empty sequence) := by
  have inside := inside_of_split annotated whole
  obtain ⟨final, ends, -, rfl⟩ := annotate_ok_iff.mp annotated
  have present : before.length < final.tokens.size := inside
  obtain ⟨lexeme, earlier, later, there, reached, move, -, alone⟩ := ends.token (Array.getElem?_eq_getElem present)
  have found : lexemes[before.length]? = some here := by
    rw [whole, List.getElem?_append_right (by simp), List.length_reverse, Nat.sub_self]
    rfl
  have taken : lexemes.take before.length = before.reverse := by
    rw [whole]
    exact List.take_left' (List.length_reverse ..)
  obtain rfl : lexeme = here := Option.some.inj (there.symm.trans found)
  have positions := positions_openings reached
  rw [taken, List.reverse_reverse] at positions
  have token : (final.tokens[before.length]).enclosing = ((Lexeme.openings before).map List.length).head? := by
    refine (congrArg Token.enclosing alone).trans ((addedToken_enclosing move).trans ?_)
    rw [around, if_neg bare, positions]
  rw [Cursor.enclosing, Cursor.token?_cursor, Array.getElem?_eq_getElem present, Option.bind_some, token]
  cases opened : Lexeme.openings before with
  | nil => rfl
  | cons outer rest =>
    have short : outer.length < final.tokens.size := by
      have stacked := opened_open reached
      have member :
          outer.length ∈ WellNested.positions earlier.opened := by rw [positions, opened]; exact List.mem_cons_self
      exact Nat.lt_trans (stacked.lt_place member) present
    exact (Cursor.cursor_of_lt short).symm

omit annotated in
theorem split_of_openings {outer : List Lexeme} (opened : (Lexeme.openings before).head? = some outer) :
    ∃ opening between, lexemes = outer.reverse ++ opening :: between := by
  have suffix (before outer : List Lexeme) (member : outer ∈ Lexeme.openings before) :
      ∃ opening front, before = front ++ opening :: outer := by
    induction before with
    | nil => cases member
    | cons last before ih =>
      have later (inside : outer ∈ Lexeme.openings before) :
          ∃ opening front, last :: before = front ++ opening :: outer := by
        obtain ⟨opening, front, rfl⟩ := ih inside
        exact ⟨opening, last :: front, rfl⟩
      unfold Lexeme.openings at member
      split at member
      · rcases List.mem_cons.mp member with rfl | inside
        · exact ⟨last, [], rfl⟩
        · exact later inside
      · exact later (List.mem_of_mem_tail member)
      · exact later member
  obtain ⟨opening, front, rfl⟩ := suffix before outer (List.mem_of_mem_head? opened)
  exact ⟨opening, front.reverse ++ here :: after, by rw [whole]; simp⟩

theorem isInParenthesis_eq (bare : here.side? ≠ some .closing) : (sequence.cursor before.length).isInParenthesis =
    !((Context.start lexemes).after before.reverse).opened.isEmpty := by
  have length := @length_openings before.reverse [] (Context.start lexemes) rfl
  rw [List.reverse_reverse, List.append_nil] at length
  rw [Cursor.isInParenthesis, enclosing_eq annotated whole bare]
  cases opened : Lexeme.openings before with
  | nil =>
    rw [opened, List.length_nil, List.length_eq_zero_iff] at length
    rw [length]
    rfl
  | cons outer rest =>
    rw [opened, List.length_cons] at length
    obtain ⟨opening, between, split⟩ := split_of_openings whole (by rw [opened]; rfl)
    have inside : outer.length < sequence.size := inside_of_split annotated split
    rw [List.head?_cons, Option.map_some, Option.getD_some, Cursor.cursor_of_lt inside]
    cases found : ((Context.start lexemes).after before.reverse).opened with
    | nil => rw [found] at length; cases length
    | cons => rfl

theorem shows_opener (bare : here.side? ≠ some .closing) :
    Shows (sequence.cursor before.length).enclosing.previous ((Lexeme.openings before).head?.bind List.head?) := by
  rw [enclosing_eq annotated whole bare]
  cases opened : (Lexeme.openings before).head? with
  | none => exact shows_empty sequence
  | some outer =>
    obtain ⟨opening, between, split⟩ := split_of_openings whole opened
    exact shows_previous annotated split

end Parentheses

section Mentions

variable {aliasNames : List String} {declared : List Nat} {context : Context}
    {before after : List Lexeme} {here : Lexeme}

theorem mention?_of_other (other : here.isName = false) (noWildcard : here.isWildcard = false) :
    Spot.mention? aliasNames declared ⟨context, before, here, after⟩ =
      none := by simp [Spot.mention?, other, noWildcard]

theorem mention?_of_dot (noWildcard : here.isWildcard = false) (dotted : after.head?.any Lexeme.isDot = true) :
    Spot.mention? aliasNames declared ⟨context, before, here, after⟩ = none := by
  simp [Spot.mention?, Spot.isExcluded, Spot.next, noWildcard, dotted]

/-- Only some clauses have columns, and that of INTO only in a list. -/
theorem mention?_unplaced {spot : Spot} (noColumns : Keyword.precedesColumns spot.clause = false)
    (unlisted : spot.clause = "INTO" → spot.context.outside = false) : spot.mention? aliasNames declared = none := by
  have words : Keyword.precedesColumns "SELECT" = true ∧ Keyword.precedesColumns "USING" = true := by decide
  have noSelect : spot.clause ≠ "SELECT" := fun same => Bool.false_ne_true (noColumns.symm.trans (same ▸ words.1))
  have noUsing : spot.clause ≠ "USING" := fun same => Bool.false_ne_true (noColumns.symm.trans (same ▸ words.2))
  have nowhere : spot.section? = none := by
    rw [Spot.section?, if_neg noUsing, noColumns]
    split
    next into => rw [unlisted into]; rfl
    next => rfl
  simp [Spot.mention?, noSelect, nowhere]

theorem mention?_of_clause {spot : Spot}
    (clause : (Keyword.precedesColumns spot.clause || spot.clause == "INTO") = false) :
    spot.mention? aliasNames declared = none := by
  obtain ⟨noColumns, noInto⟩ := (Bool.or_eq_false_iff).mp clause
  exact mention?_unplaced noColumns fun into => absurd into (by simpa using noInto)

theorem section?_on {spot : Spot} (clause : spot.clause = "ON") : spot.section? = some .join := by
  rw [Spot.section?, clause]
  rfl

end Mentions

section Passes

/-- The keyword of the clause stands in front of the parenthesis. -/
private theorem openedAfter_eq {cursor : Cursor} {sign : Sign} (found : cursor.sign? = some sign)
    (bare : sign.paren = none) :
    (match cursor.enclosing.index, cursor.lastKeyword? with
      | some opening, some mark => decide (mark.position < opening)
      | _, _ => false) = sign.outside := by
  obtain ⟨token, stored, rfl⟩ := Option.map_eq_some_iff.mp found
  have opening : cursor.enclosing.index = token.enclosing := by rw [Cursor.enclosing, stored]; rfl
  have keyword : cursor.lastKeyword? = token.lastKeyword := by rw [Cursor.lastKeyword?, stored]; rfl
  have none : token.paren = .none := bare
  change _ = (token.paren.isNone && _)
  rw [opening, keyword, none]
  rfl

variable {limits : Limits} {lexemes : List Lexeme} {sequence : TokenSequence}
    (annotated : annotate limits lexemes = .ok sequence)
include annotated

theorem shows_second {before after : List Lexeme} {here : Lexeme} (whole : lexemes = before.reverse ++ here :: after) :
    Shows (sequence.cursor before.length).previous.previous before[1]? := by
  cases before with
  | nil =>
    rw [List.length_nil, previous_of_first sequence (inside_of_split annotated whole)]
    exact shows_empty sequence
  | cons last before =>
    obtain ⟨same, earlier⟩ := previous_of_split annotated whole
    rw [same, List.getElem?_cons_succ, ← List.head?_eq_getElem?]
    exact shows_previous annotated earlier

theorem shows_third {before after : List Lexeme} {here : Lexeme} (whole : lexemes = before.reverse ++ here :: after) :
    Shows (sequence.cursor before.length).previous.previous.previous before[2]? := by
  cases before with
  | nil =>
    rw [List.length_nil, previous_of_first sequence (inside_of_split annotated whole)]
    exact shows_empty sequence
  | cons last before =>
    obtain ⟨same, earlier⟩ := previous_of_split annotated whole
    rw [same, List.getElem?_cons_succ]
    exact shows_second annotated earlier

variable {spot : Spot} (within : Within lexemes spot)
include within

theorem sign?_eq (bare : spot.here.side? = none) : (sequence.cursor spot.before.length).sign? =
    some ⟨spot.here, spot.here.normalized, spot.context.clause, none, spot.context.opened.head?.map Context.role,
      spot.context.outside⟩ := by
  rw [sign?_here annotated within.whole, ← within.context, Context.sign, bare]

theorem opens_eq (bare : spot.here.side? = none) (kind : ParenKind) :
    (sequence.cursor spot.before.length).enclosing.opens kind = spot.isIn kind := by
  rw [Cursor.opens, Places.enclosing, sign?_eq annotated within bare, Spot.isIn]
  cases spot.context.opened.head? with
  | none => rfl
  | some frame => cases kind <;> cases same : frame.kind <;> simp [Context.role, same]

theorem isIntervalUnit_eq : Column.isIntervalUnit (sequence.cursor spot.before.length) = spot.isIntervalUnit := by
  have amount := shows_previous annotated within.whole
  have sign := shows_second annotated within.whole
  have before := shows_third annotated within.whole
  have signed : ((sequence.cursor spot.before.length).previous.previous.value == "-" ||
      (sequence.cursor spot.before.length).previous.previous.value == "+") =
        spot.before[1]?.any fun sign => sign.value == "-" || sign.value == "+" := by
    rw [sign.value]
    cases spot.before[1]? <;> rfl
  have number :
      ((sequence.cursor spot.before.length).previous.isInteger ||
        (sequence.cursor spot.before.length).previous.isLiteral) =
      spot.previous.any fun amount => amount.kind == .integer || amount.kind == .literal := by
    rw [Cursor.isInteger, Cursor.isLiteral, amount.kind, Spot.previous]
    cases spot.before.head? <;> rfl
  unfold Column.isIntervalUnit Spot.isIntervalUnit
  simp only [number, signed]
  split
  · rw [before.isWord]
  · rw [sign.isWord]

theorem section?_eq (bare : spot.here.side? = none) :
    Column.section? (sequence.cursor spot.before.length) = spot.section? := by
  have unclosing : spot.here.side? ≠ some .closing := by
    rw [bare]
    nofun
  have opener := shows_opener annotated within.whole unclosing
  have previous := shows_previous annotated within.whole
  have outside := openedAfter_eq (sign?_eq annotated within bare) rfl
  unfold Column.section? Spot.section?
  rw [lastKeyword_eq annotated within, opener.isWord, previous.isPunctuation]
  generalize (sequence.cursor spot.before.length).enclosing.index = opening at outside
  generalize (sequence.cursor spot.before.length).lastKeyword? = mark at outside
  cases opening <;> cases mark <;> simp only at outside <;> simp only [← outside] <;> rfl

theorem isExcluded_eq (bare : spot.here.side? = none) (declared : List Nat) :
    Column.isExcluded (sequence.cursor spot.before.length) declared = spot.isExcluded declared := by
  have here := shows_here annotated within.whole
  have next := shows_next annotated within.whole
  have previous := shows_previous annotated within.whole
  have normalized : (sequence.cursor spot.before.length).normalized = spot.here.normalized := here.normalized
  have cast : ((sequence.cursor spot.before.length).previous.value == "::") = spot.previous.any (·.value == "::") := by
    rw [previous.value, Spot.previous]
    cases spot.before.head? <;> rfl
  have index : (sequence.cursor spot.before.length).index = some spot.before.length :=
    congrArg Cursor.index (Cursor.cursor_of_lt (inside_of_split annotated within.whole))
  unfold Column.isExcluded Spot.isExcluded
  simp only [next.isDot, next.isLeftParen, normalized, previous.isWord, previous.isRightParen, cast,
    isIntervalUnit_eq annotated within, index, opens_eq annotated within bare, Option.any_some]
  rfl

theorem mention?_eq (aliasNames : List String) (declared : List Nat) :
    Column.mention? aliasNames declared (sequence.cursor spot.before.length) = spot.mention? aliasNames declared := by
  have here := shows_here annotated within.whole
  have previous := shows_previous annotated within.whole
  have wildcard : (sequence.cursor spot.before.length).isWildcard = spot.here.isWildcard := by
    rw [Cursor.isWildcard, here.kind]
    rfl
  have named : (sequence.cursor spot.before.length).isName = spot.here.isName := here.isName
  unfold Column.mention? Spot.mention?
  simp only [wildcard, named, lastKeyword_eq annotated within, previous.isLeftParen,
    dottedName_eq annotated within.whole]
  cases name : spot.here.isName with
  | false => simp [Spot.previous]
  | true =>
    have bare : spot.here.side? = none := side?_of_name name
    rw [isExcluded_eq annotated within bare, section?_eq annotated within bare]
    rfl

omit within in
theorem mentions_eq (aliasNames : List String) (declared : List Nat) : Column.mentions sequence aliasNames declared =
    (spots (Context.start lexemes) [] lexemes []).filterMap (Spot.mention? aliasNames declared) :=
  filterMap_spots annotated fun _ within => mention?_eq annotated within aliasNames declared

theorem isExpressionAlias_eq_false (nothing : spot.mayDeclare = false) :
    AliasDeclaration.isExpressionAlias (sequence.cursor spot.before.length) = false := by
  have here := shows_here annotated within.whole
  have next := shows_next annotated within.whole
  have previous := shows_previous annotated within.whole
  have named : (sequence.cursor spot.before.length).isName = spot.here.isName := here.isName
  have closes (kind : ParenKind) (closed : (sequence.cursor spot.before.length).previous.closes kind = true) :
      spot.previous.any (·.isPunctuation ")") = true := by
    rw [Spot.previous, ← previous.isRightParen, Cursor.isRightParen]
    rw [Cursor.closes, beq_iff_eq] at closed
    rw [closed]
    rfl
  have unmarked (clause : spot.clause ≠ "SELECT") :
      AliasDeclaration.isAliasWithoutAs (sequence.cursor spot.before.length) = false := by
    simp [AliasDeclaration.isAliasWithoutAs, lastKeyword_eq annotated within, clause]
  rw [Bool.eq_false_iff]
  intro declared
  simp only [AliasDeclaration.isExpressionAlias, named, next.isDot, next.isLeftParen, lastKeyword_eq annotated within,
    previous.isWord, Bool.and_eq_true, Bool.or_eq_true] at declared
  obtain ⟨⟨⟨⟨⟨name, noDot⟩, noCall⟩, columns⟩, noUsing⟩, around⟩ := declared
  have place :
      (spot.previous.any (Lexeme.reads "AS") || spot.previous.any (·.isPunctuation ")") || spot.clause == "SELECT") =
          true := by
    simp only [Bool.or_eq_true]
    rcases around with ((as | call) | definition) | bare
    · exact .inl (.inl as.1)
    · exact .inl (.inr (closes _ call))
    · exact .inl (.inr (closes _ definition))
    · refine .inr (beq_iff_eq.mpr (Decidable.byContradiction fun clause => ?_))
      rw [unmarked clause] at bare
      cases bare
  rw [Spot.mayDeclare, name, columns, noUsing, place] at nothing
  unfold Spot.next at nothing
  simp_all

omit within in
theorem declarations_eq_nil (nothing : ∀ spot ∈ spots (Context.start lexemes) [] lexemes [], spot.mayDeclare = false) :
    Facts.declarations sequence {} = [] := by
  have none (reserved : List String) : AliasDeclaration.ofExpressions sequence reserved = [] := by
    rw [AliasDeclaration.ofExpressions, List.filterMap_filter, List.filterMap_eq_nil_iff]
    intro cursor member
    obtain ⟨index, inside, rfl⟩ := Cursor.mem_cursors member
    obtain ⟨spot, within, rfl⟩ := exists_spot annotated inside
    rw [isExpressionAlias_eq_false annotated within (nothing spot within.mem)]
    rfl
  rw [Facts.declarations, AliasDeclaration.ofTokens, none]
  exact List.mergeSort_nil

end Passes

end QueryFacts.Proofs.ColumnSpots

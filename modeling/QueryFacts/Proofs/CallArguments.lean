import QueryFacts.Proofs.BareFacts
import QueryFacts.Proofs.CreatedColumns
import QueryFacts.Proofs.TableSpots
import QueryFacts.Proofs.WithStatements

/-! The tables of a statement that selects calls. A keyword among the arguments of a call begins a clause there
as it would outside, so that a name behind FROM is taken for a table, and behind the call the clause around it
goes on. Which names are taken is told from the arguments alone. -/

namespace QueryFacts
open Proofs.Parenthesis Proofs.NestingRun

/-- A name and what stands in the parentheses behind it. -/
structure FunctionCall where
  function : Lexeme
  opening : Lexeme
  arguments : List Lexeme
  closing : Lexeme

/-- The last keyword that began a clause. It reaches what comes now if no parenthesis has opened since, other than that
of a sub-query. -/
structure ClauseReach where
  word : String
  reaches : Bool

/-- What tells the tables among the arguments of a call from other names. -/
structure ArgumentState where
  /-- The lexemes so far, nearest first. -/
  before : List Lexeme
  clause : ClauseReach
  /-- The clauses that go on behind the parentheses that are open. -/
  outer : List ClauseReach

namespace ArgumentState

def step (state : ArgumentState) (lexeme : Lexeme) : ArgumentState :=
  let before := lexeme :: state.before
  match lexeme.side?, state.outer with
  | some .opening, outer =>
    let query := state.before.head?.any fun last => last.isKeyword && Keyword.precedesSubquery last.normalized
    ⟨before, ⟨state.clause.word, query⟩, state.clause :: outer⟩
  | some .closing, [] => ⟨before, state.clause, []⟩
  | some .closing, clause :: outer => ⟨before, clause, outer⟩
  | none, outer =>
    if lexeme.isKeyword && !Keyword.isInsignificant lexeme.normalized then ⟨before, ⟨lexeme.normalized, true⟩, outer⟩
    else ⟨before, state.clause, outer⟩

/-- A name that is no column of a list names a table in a clause of tables: at its start, behind a mark, or
behind a dot. -/
def table? (state : ArgumentState) (here : Lexeme) (next : Option Lexeme) : Option String :=
  let last := state.before.head?
  if !here.isName || !Keyword.precedesTables state.clause.word || !state.clause.reaches ||
    next.any Lexeme.isDot then none
  else if last.any fun last => last.reads "AS" || last.reads "WITH" then none
  else if last.any Lexeme.isDot then some (String.intercalate "." (Lexeme.nameParts state.before here))
  else
    let starts := last.any fun last => last.normalized == state.clause.word || last.reads "EXISTS" || last.isMark
    if starts && !last.any (·.isPunctuation ")") then some here.value else none

def tables (state : ArgumentState) : List Lexeme → List String
  | [] => []
  | here :: rest => (state.table? here rest.head?).toList ++ (state.step here).tables rest

end ArgumentState

namespace FunctionCall

def lexemes (call : FunctionCall) : List Lexeme := call.function :: call.opening :: (call.arguments ++ [call.closing])

/-- The names among the arguments that are taken for tables, in a select list. -/
def tables (call : FunctionCall) : List String :=
  ArgumentState.tables ⟨[call.opening], ⟨"SELECT", false⟩, [⟨"SELECT", true⟩]⟩ call.arguments

structure WellFormed (call : FunctionCall) : Prop where
  function : call.function.isName = true
  opening : call.opening.isPunctuation "(" = true
  balanced : Balanced (sides call.arguments)
  closing : call.closing.isPunctuation ")" = true

end FunctionCall

/-- SELECT, calls with commas before all but the first, FROM, and a table. -/
structure CallSelection where
  select : Lexeme
  call : FunctionCall
  more : List (Lexeme × FunctionCall)
  source : Lexeme
  table : Lexeme

namespace CallSelection

def calls (selection : CallSelection) : List FunctionCall := selection.call :: selection.more.map (·.2)

def listed (call : FunctionCall) (more : List (Lexeme × FunctionCall)) : List Lexeme :=
  call.lexemes ++ more.flatMap fun entry => entry.1 :: entry.2.lexemes

def lexemes (selection : CallSelection) : List Lexeme :=
  selection.select :: (listed selection.call selection.more ++ [selection.source, selection.table])

structure WellFormed (selection : CallSelection) : Prop where
  select : selection.select.IsBareWord "SELECT"
  calls : ∀ call ∈ selection.calls, call.WellFormed
  commas : ∀ entry ∈ selection.more, entry.1.isPunctuation "," = true
  source : selection.source.IsBareWord "FROM"
  table : selection.table.isName = true

end CallSelection

namespace Lexeme

/-- A query begins with `next` behind a parenthesis: a WITH clause, or a query in the place of a table. -/
def beginsQuery (before : Option Lexeme) (opening next : Lexeme) : Bool :=
  opening.isPunctuation "(" && (next.reads "WITH" ||
    (before.any fun keyword => keyword.isKeyword && Keyword.precedesSubquery keyword.normalized) &&
      ["SELECT", "WITH"].contains next.normalized)

/-- No query begins behind a parenthesis. -/
def isQueryless (before : Option Lexeme) : List Lexeme → Bool
  | here :: next :: rest => !beginsQuery before here next && isQueryless (some here) (next :: rest)
  | _ => true

end Lexeme

end QueryFacts

namespace QueryFacts.Proofs.CallArguments
open Lexeme Parenthesis NestingRun Signs Spots Clauses TableSpots CreatedColumns Unnested

section Contexts

variable {context : Context} {lexeme : Lexeme} {part : List Lexeme}

theorem noName_of_keyword (keyword : lexeme.isKeyword = true) : lexeme.isName = false := by
  have kind : lexeme.kind = .keyword := eq_of_beq keyword
  simp [isName, kind]

/-- A parenthesis holds a sub-query where a keyword says so. -/
theorem parenKind_subquery : (decide (context.parenKind = .subquery)) =
    context.last.any fun last => last.isKeyword && Keyword.precedesSubquery last.normalized := by
  cases query : context.last.any fun last => last.isKeyword && Keyword.precedesSubquery last.normalized with
  | true =>
    obtain ⟨last, found, queries⟩ := (Option.any_eq_true ..).mp query
    simp only [Context.parenKind, found, queries, if_true, decide_true]
  | false =>
    refine decide_eq_false (Context.parenKind_ne_subquery fun last found => ?_)
    have found : context.last = some last := found
    simpa only [found, Option.any_some] using query

private theorem opened_extra {base extra : List Frame} (opened : context.opened = extra ++ base)
    (above : ∀ count, 0 ≤ (extra.length : Int) + height ((sides part).take count)) :
    ∃ later : List Frame, (context.after part).opened = later ++ base ∧
      (later.length : Int) = extra.length + height (sides part) := by
  induction part generalizing context extra with
  | nil => exact ⟨extra, opened, (Int.add_zero _).symm⟩
  | cons lexeme part ih =>
    have grows (rest : Sides) : height (lexeme.side? :: rest) = rise lexeme.side? + height rest := by
      rw [← List.singleton_append, height_append, height_singleton]
    have own := above 1
    rw [sides, List.map_cons, List.take_succ_cons, List.take_zero, height_singleton] at own
    obtain ⟨next, opened, count⟩ : ∃ next : List Frame, (context.step lexeme).opened = next ++ base ∧
        (next.length : Int) = extra.length + rise lexeme.side? := by
      cases side : lexeme.side? with
      | none => exact ⟨extra, (opened_step side).trans opened, (Int.add_zero _).symm⟩
      | some side' =>
        cases side' with
        | opening =>
          refine ⟨⟨context.parenKind, context.clause, context.outside⟩ :: extra, ?_, ?_⟩
          · simp only [Context.step, side, opened, List.cons_append]
          · rw [List.length_cons, Int.natCast_add]
            rfl
        | closing =>
          rw [side] at own
          have some : extra ≠ [] := by
            rintro rfl
            exact absurd own (by decide)
          obtain ⟨frame, outer, rfl⟩ := List.exists_cons_of_ne_nil some
          refine ⟨outer, by simp only [Context.step, side, opened, List.cons_append], ?_⟩
          rw [List.length_cons, Int.natCast_add]
          simp only [rise]
          omega
    obtain ⟨later, opened, total⟩ := ih opened fun index => by
      have bound := above (index + 1)
      rw [sides, List.map_cons, List.take_succ_cons, grows] at bound
      rw [count, Int.add_assoc]
      exact bound
    exact ⟨later, opened, by rw [total, count, Int.add_assoc, sides, sides, List.map_cons, grows]⟩

/-- What opens and closes its own parentheses leaves those around it open. -/
theorem opened_balanced (balanced : Balanced (sides part)) : (context.after part).opened = context.opened := by
  obtain ⟨later, opened, total⟩ := @opened_extra context part context.opened [] rfl fun count => by
    rw [List.length_nil, Int.ofNat_zero, Int.zero_add]
    exact balanced.before count
  rw [balanced.whole] at total
  obtain rfl : later = [] := List.length_eq_zero_iff.mp (Int.ofNat_eq_zero.mp total)
  exact opened

end Contexts

section Tables

variable {state : ArgumentState} {keyword name : Lexeme} {front back part : List Lexeme}

/-- A keyword before tables begins a clause, and is none that a name stands behind as something else. -/
theorem facts_of_precedesTables (isKeyword : keyword.isKeyword = true)
    (tables : Keyword.precedesTables keyword.normalized = true) :
    Keyword.isInsignificant keyword.normalized = false ∧ keyword.reads "AS" = false ∧ keyword.reads "WITH" = false ∧
      keyword.isDot = false ∧ keyword.isPunctuation ")" = false := by
  have others : ∀ word ∈ "WITH" :: Keyword.insignificant, Keyword.precedesTables word = false := by decide
  have ne (word : String) (member : word ∈ "WITH" :: Keyword.insignificant) : keyword.normalized ≠ word := by
    rintro rfl
    exact Bool.false_ne_true ((others _ member).symm.trans tables)
  have kind : keyword.kind = .keyword := eq_of_beq isKeyword
  refine ⟨Bool.eq_false_iff.mpr fun inside => ?_, ?_, ?_, by simp [isDot, kind], by simp [isPunctuation, kind]⟩
  · exact ne _ (List.mem_cons_of_mem _ (List.contains_iff_mem.mp inside)) rfl
  · simp [Lexeme.reads, ne "AS" (by decide)]
  · simp [Lexeme.reads, ne "WITH" (by decide)]

/-- A name directly behind a keyword before tables is taken for one, however deep it stands. -/
theorem mem_tables_behind (isKeyword : keyword.isKeyword = true)
    (tables : Keyword.precedesTables keyword.normalized = true)
    (named : name.isName = true) (ends : back.head?.any isDot = false) :
    name.value ∈ state.tables (front ++ keyword :: name :: back) := by
  obtain ⟨significant, noAs, noWith, noDot, noClosing⟩ := facts_of_precedesTables isKeyword tables
  induction front generalizing state with
  | nil =>
    have moved : state.step keyword = ⟨keyword :: state.before, ⟨keyword.normalized, true⟩, state.outer⟩ := by
      simp [ArgumentState.step, side?_of_keyword isKeyword, isKeyword, significant]
    have here : (state.step keyword).table? name back.head? = some name.value := by
      rw [moved]
      simp [ArgumentState.table?, named, tables, ends, noAs, noWith, noDot, noClosing]
    rw [List.nil_append, ArgumentState.tables, ArgumentState.tables, here]
    simp
  | cons first front ih => exact List.mem_append_right _ ih

/-- Without a keyword before tables no name is taken for one. -/
theorem tables_eq_nil (clauses : ∀ clause ∈ state.clause :: state.outer, Keyword.precedesTables clause.word = false)
    (none : ∀ lexeme ∈ part, lexeme.isKeyword = true → Keyword.precedesTables lexeme.normalized = false) :
    state.tables part = [] := by
  induction part generalizing state with
  | nil => rfl
  | cons here part ih =>
    obtain ⟨now, later⟩ := List.forall_mem_cons.mp none
    obtain ⟨clause, outer⟩ := List.forall_mem_cons.mp clauses
    have silent : state.table? here part.head? = Option.none := by simp [ArgumentState.table?, clause]
    have moved :
        ∀ clause ∈ (state.step here).clause :: (state.step here).outer, Keyword.precedesTables clause.word = false := by
      unfold ArgumentState.step
      split
      · exact List.forall_mem_cons.mpr ⟨clause, clauses⟩
      · exact List.forall_mem_singleton.mpr clause
      next found => exact found ▸ outer
      next found =>
        split
        next begins => exact List.forall_mem_cons.mpr ⟨now (Bool.and_eq_true_iff.mp begins).1, outer⟩
        next => exact clauses
    rw [ArgumentState.tables, silent, ih moved later]
    rfl

end Tables

section States

def reachOf (clause : Option String) (outside : Bool) (opened : List Frame) : ClauseReach :=
  ⟨clause.getD "", !(outside && !opened.head?.any (·.kind = .subquery))⟩

def reachesOf : List Frame → List ClauseReach
  | [] => []
  | frame :: outer => reachOf frame.clause frame.outside outer :: reachesOf outer

/-- What of the annotation tells tables. -/
def stateOf (context : Context) (before : List Lexeme) : ArgumentState :=
  ⟨before, reachOf context.clause context.outside context.opened, reachesOf context.opened⟩

/-- A clause has begun, and the last lexeme is the nearest of those before. -/
structure Begun (context : Context) (before : List Lexeme) : Prop where
  clause : context.clause.isSome = true
  outer : ∀ frame ∈ context.opened, frame.clause.isSome = true
  last : context.last = before.head?

variable {context : Context} {lexeme here : Lexeme} {before after : List Lexeme}

theorem Begun.step (begun : Begun context before) (lexeme : Lexeme) :
    Begun (context.step lexeme) (lexeme :: before) := by
  obtain ⟨clause, outer, -⟩ := begun
  refine ⟨?_, ?_, Context.last_step context lexeme⟩
  · unfold Context.step
    split
    · exact clause
    · split
      · exact clause
      next frame outer' opened => exact outer frame (opened ▸ List.mem_cons_self)
    · split
      · dsimp only
        split
        · exact clause
        · rfl
      · exact clause
  · unfold Context.step
    split
    · exact List.forall_mem_cons.mpr ⟨clause, outer⟩
    · split
      · exact outer
      next frame outer' opened => exact fun other member => outer other (opened ▸ List.mem_cons_of_mem _ member)
    · split <;> exact outer

/-- The state moves as the annotation does. -/
theorem stateOf_step (begun : Begun context before) (lexeme : Lexeme) :
    stateOf (context.step lexeme) (lexeme :: before) = (stateOf context before).step lexeme := by
  cases side : lexeme.side? with
  | none =>
    by_cases keyword : lexeme.isKeyword = true
    · cases word : Keyword.isInsignificant lexeme.normalized <;>
        simp [stateOf, ArgumentState.step, Context.step, side, keyword, word, reachOf]
    · simp [stateOf, ArgumentState.step, Context.step, side, keyword]
  | some side' =>
    cases side' with
    | opening =>
      have query := @parenKind_subquery context
      rw [begun.last] at query
      simp [stateOf, ArgumentState.step, Context.step, side, begun.clause, reachOf, reachesOf, query]
    | closing =>
      cases opened : context.opened with
      | nil => simp [stateOf, ArgumentState.step, Context.step, side, opened, reachesOf]
      | cons frame outer => simp [stateOf, ArgumentState.step, Context.step, side, opened, reachesOf]

/-- The state tells the table. -/
theorem table?_stateOf (last : Lexeme) : Spot.table? ⟨context, last :: before, here, after⟩ =
    (stateOf context (last :: before)).table? here after.head? := by
  simp only [Spot.table?, ArgumentState.table?, stateOf, reachOf, Spot.clause, Spot.previous,
    Spot.next, Spot.isInColumnList, List.head?_cons, Option.any_some, Option.map_some, Option.getD_some, Bool.not_not]
  grind

/-- A dotted name does not go on in front of a parenthesis. -/
theorem nameParts_behind {border : Lexeme} (noName : border.isName = false) (noDot : border.isDot = false)
    (front rest : List Lexeme) (here : Lexeme) :
    nameParts (front ++ border :: rest) here = nameParts (front ++ [border]) here := by
  match front with
  | [] =>
    exact (nameParts_undotted (undotted_cons noDot rest) here).trans
      (nameParts_undotted (undotted_cons noDot []) here).symm
  | [last] => simp [nameParts, noName]
  | dot :: name :: front =>
    rw [List.cons_append, List.cons_append, List.cons_append, List.cons_append, nameParts, nameParts,
      nameParts_behind noName noDot front rest name]

theorem table?_behind (state : ArgumentState) {border : Lexeme} (noName : border.isName = false)
    (noDot : border.isDot = false)
    (front rest : List Lexeme) (here : Lexeme) (next : Option Lexeme) :
    ArgumentState.table? { state with before := front ++ border :: rest } here next =
      ArgumentState.table? { state with before := front ++ [border] } here next := by
  have same : (front ++ border :: rest).head? = (front ++ [border]).head? := by cases front <;> rfl
  simp only [ArgumentState.table?, same, nameParts_behind noName noDot]

theorem facts_of_punctuation {text : String} (mark : lexeme.isPunctuation text = true) :
    lexeme.isName = false ∧ lexeme.isDot = false ∧ lexeme.isKeyword = false := by
  rw [isPunctuation, Bool.and_eq_true, beq_iff_eq] at mark
  simp [isName, isDot, isKeyword, mark.1]

/-- The tables that the pass finds in a parenthesis are those that the state tells. -/
theorem tables_eq {opening : Lexeme} (opens : opening.isPunctuation "(" = true) (front : List Lexeme)
    {rest part : List Lexeme} (begun : Begun context (front ++ opening :: rest))
    (ends : after.head?.any isDot = false) :
    (spots context (front ++ opening :: rest) part after).filterMap Spot.table? =
      (stateOf context (front ++ [opening])).tables part := by
  obtain ⟨noName, noDot, -⟩ := facts_of_punctuation opens
  induction part generalizing context front with
  | nil => rfl
  | cons here part ih =>
    have now : Spot.table? ⟨context, front ++ opening :: rest, here, part ++ after⟩ =
        (stateOf context (front ++ [opening])).table? here part.head? := by
      have next : (part ++ after).head?.any isDot = part.head?.any isDot := by
        cases part with
        | nil => exact ends
        | cons => rfl
      have told : Spot.table? ⟨context, front ++ opening :: rest, here, part ++ after⟩ =
          (stateOf context (front ++ opening :: rest)).table? here (part ++ after).head? := by
        cases front <;> exact table?_stateOf _
      refine told.trans (Eq.trans ?_ (table?_behind (stateOf context []) noName noDot front rest here part.head?))
      simp only [ArgumentState.table?, next]
      rfl
    have moved : stateOf (context.step here) ((here :: front) ++ [opening]) =
        (stateOf context (front ++ [opening])).step here := by
      have last : Begun context (front ++ [opening]) :=
        ⟨begun.clause, begun.outer, by rw [begun.last]; cases front <;> rfl⟩
      exact stateOf_step last here
    rw [filterMap_cons, now, ArgumentState.tables, ← moved]
    exact congrArg _ (ih (here :: front) (begun.step here))

end States

section Calls

variable {context : Context} {before after : List Lexeme} {call : FunctionCall}

/-- In the select list of a statement, outside of all parentheses. -/
structure Selecting (context : Context) : Prop where
  clause : context.clause = some "SELECT"
  outside : context.outside = false
  opened : context.opened = []

theorem Selecting.resumes {later : Context} (selecting : Selecting context)
    (resumes : context.Resumes later) : Selecting later :=
  ⟨resumes.clause.trans selecting.clause, resumes.outside.trans selecting.outside,
    resumes.opened.trans selecting.opened⟩

theorem Selecting.noTable (selecting : Selecting context) {here : Lexeme} :
    Spot.table? ⟨context, before, here, after⟩ = none := by
  refine (silent_of_clause ?_).1
  rw [Spot.clause, selecting.clause]
  decide

theorem resumes_call (formed : call.WellFormed) : context.Resumes (context.after call.lexemes) := by
  have function : context.Resumes (context.step call.function) :=
    resumes_step (staying_of_wordless (wordless_of_name formed.function))
  exact function.trans (resumes_between (side?_eq_opening.mpr formed.opening) (side?_eq_closing.mpr formed.closing)
    fun _ => opened_balanced formed.balanced)

/-- Behind the parenthesis of a call a table has to wait for a clause. -/
theorem stateOf_opening (formed : call.WellFormed) (selecting : Selecting context) :
    stateOf ((context.step call.function).step call.opening) [call.opening] =
      ⟨[call.opening], ⟨"SELECT", false⟩, [⟨"SELECT", true⟩]⟩ := by
  have function := wordless_of_name formed.function
  obtain ⟨clause, outside, opened⟩ := selecting.resumes (resumes_step (staying_of_wordless function))
  have side := side?_eq_opening.mpr formed.opening
  have noQuery : (context.step call.function).parenKind ≠ .subquery :=
    Context.parenKind_ne_subquery fun last found => by
    rw [Context.last_step] at found
    rw [← Option.some.inj found, function.2, Bool.false_and]
  simp [stateOf, Context.step.eq_1 (context.step call.function), side, clause, outside, opened,
    reachOf, reachesOf, noQuery]

theorem tables_call (formed : call.WellFormed) (selecting : Selecting context) :
    (spots context before call.lexemes after).filterMap Spot.table? = call.tables := by
  have named : Selecting (context.step call.function) :=
    selecting.resumes (resumes_step (staying_of_wordless (wordless_of_name formed.function)))
  have begun : Begun (context.step call.function) (call.function :: before) :=
    ⟨by rw [named.clause]; rfl, by rw [named.opened]; exact List.forall_mem_nil _, Context.last_step _ _⟩
  have closing := facts_of_punctuation formed.closing
  have inside :
      (spots ((context.step call.function).step call.opening) (call.opening :: call.function :: before) call.arguments
      (call.closing :: after)).filterMap Spot.table? = call.tables := by
    rw [FunctionCall.tables, ← stateOf_opening formed selecting]
    exact tables_eq formed.opening [] (begun.step call.opening) closing.2.1
  have last : (spots (((context.step call.function).step call.opening).after call.arguments)
      (call.arguments.reverse ++ call.opening :: call.function :: before) [call.closing] after).filterMap Spot.table? =
          [] := by
    have silent (context : Context) (before : List Lexeme) : Finds [] context before [call.closing] after [] [] :=
      .silent (silent_of_other closing.1)
    exact (silent _ _).names
  rw [FunctionCall.lexemes, filterMap_cons, selecting.noTable, filterMap_cons, named.noTable,
    spots_append, List.filterMap_append, last, List.append_nil]
  exact inside

variable {more : List (Lexeme × FunctionCall)}

theorem tables_listed (formed : call.WellFormed)
    (others : ∀ entry ∈ more, entry.1.isPunctuation "," = true ∧ entry.2.WellFormed)
    (selecting : Selecting context) :
    (spots context before (CallSelection.listed call more) after).filterMap Spot.table? =
      (call :: more.map (·.2)).flatMap FunctionCall.tables ∧
          Selecting (context.after (CallSelection.listed call more)) := by
  induction more generalizing context before call with
  | nil =>
    rw [CallSelection.listed, List.flatMap_nil, List.append_nil, List.map_nil, List.flatMap_singleton]
    exact ⟨tables_call formed selecting, selecting.resumes (resumes_call formed)⟩
  | cons entry more ih =>
    obtain ⟨comma, next⟩ := entry
    obtain ⟨⟨isComma, formed'⟩, others⟩ := List.forall_mem_cons.mp others
    have parts : CallSelection.listed call ((comma, next) :: more) =
        call.lexemes ++ comma :: CallSelection.listed next more := rfl
    have behind := selecting.resumes (resumes_call formed)
    have border : comma.Staying := staying_of_wordless ⟨side?_of_comma isComma, (facts_of_punctuation isComma).2.2⟩
    have later : Selecting ((context.after call.lexemes).step comma) := behind.resumes (resumes_step border)
    obtain ⟨tables, ends⟩ := @ih _ (comma :: (call.lexemes.reverse ++ before)) next formed' others later
    rw [parts, Context.after_append]
    refine ⟨?_, ends⟩
    rw [spots_append, List.filterMap_append, tables_call formed selecting, filterMap_cons, behind.noTable, tables]
    rfl

end Calls

section Queries

variable {limits : Limits} {lexemes : List Lexeme} {sequence : TokenSequence} {here next : Lexeme} {after : List Lexeme}

theorem last_of_within {spot : Spot} (within : Within lexemes spot) : spot.context.last = spot.before.head? := by
  rw [within.context]
  cases spot.before with
  | nil => rfl
  | cons last before =>
    rw [List.reverse_cons, Context.after_append]
    exact Context.last_step _ last

theorem beginsQuery_of_queryless {before : Option Lexeme} {part : List Lexeme}
    (queryless : isQueryless before (part ++ here :: next :: after) = true) :
    beginsQuery (part.getLast?.or before) here next = false := by
  induction part generalizing before with
  | nil =>
    rw [List.nil_append, isQueryless, Bool.and_eq_true, Bool.not_eq_true'] at queryless
    exact queryless.1
  | cons first part ih =>
    have later : isQueryless (some first) (part ++ here :: next :: after) = true := by
      cases part with
      | nil => exact (Bool.and_eq_true_iff.mp queryless).2
      | cons => exact (Bool.and_eq_true_iff.mp queryless).2
    have told := ih later
    rw [List.getLast?_cons, Option.some_or]
    cases last : part.getLast? <;> rw [last] at told <;> exact told

variable (annotated : annotate limits lexemes = .ok sequence) (queryless : isQueryless none lexemes = true)
include annotated queryless

/-- WITH behind no parenthesis declares nothing, unless the statement begins with it. -/
theorem clauseless_queryless (noWith : lexemes.head?.any (reads "WITH") = false) :
    WithClause.ofTokens sequence = .ok {} := by
  have empty : sequence.cursors.filter WithClause.isHeader = [] := by
    refine List.filter_eq_nil_iff.mpr fun cursor member => ?_
    obtain ⟨index, inside, rfl⟩ := Cursor.mem_cursors member
    obtain ⟨⟨context, before, here, after⟩, within, rfl⟩ := exists_spot annotated inside
    have whole := within.whole
    have word := (shows_here annotated whole).isWord "WITH"
    rw [Option.any_some] at word
    cases before with
    | nil =>
      rw [whole] at noWith
      have other : (sequence.cursor 0).isWord "WITH" = false := word.trans noWith
      simp [WithClause.isHeader, other]
    | cons last before =>
      obtain ⟨previous, earlier⟩ := previous_of_split annotated whole
      have some : (sequence.cursor before.length).isEmpty = false := by
        rw [Cursor.cursor_of_lt (inside_of_split annotated earlier)]
        rfl
      have paren : (sequence.cursor before.length).isLeftParen = last.isPunctuation "(" :=
        (shows_here annotated earlier).isLeftParen
      rw [earlier] at queryless
      have told := beginsQuery_of_queryless queryless
      rw [beginsQuery, Bool.and_eq_false_imp] at told
      cases opens : last.isPunctuation "(" with
      | false =>
        simp only [WithClause.isHeader, previous, some, paren, opens, Bool.or_self, Bool.and_false,
          Bool.false_eq_true, not_false_eq_true]
      | true =>
        have other : (sequence.cursor (last :: before).length).isWord "WITH" = false :=
          word.trans (Bool.or_eq_false_iff.mp (told opens)).1
        simp only [WithClause.isHeader, other, Bool.false_and, Bool.false_eq_true, not_false_eq_true]
  rw [WithClause.ofTokens, empty]
  rfl

/-- In the parenthesis of a sub-query neither SELECT nor WITH comes first. -/
private theorem queryless_behind {index first : Nat} (closes : (sequence.cursor index).closes .subquery = true)
    (opened : (sequence.cursor index).matching.index = some first) :
    ["SELECT", "WITH"].contains (sequence.cursor index).matching.next.normalized = false := by
  have nested := WellNested.annotate_wellNested annotated
  rw [Cursor.matching, Option.bind_eq_some_iff] at opened
  obtain ⟨token, found, matching⟩ := opened
  rw [Cursor.token?_cursor] at found
  have role : token.paren = some ⟨.subquery, .closing⟩ := by
    rw [Cursor.closes, beq_iff_eq, Cursor.paren?, Cursor.token?_cursor, found] at closes
    exact closes
  have pair : sequence.Pair first index := by
    rcases ((nested.placed index token found).matching first).mp matching with pair | pair
    · obtain ⟨kind, opening, -⟩ := nested.kinds index first pair
      rw [TokenSequence.role, found, Option.bind_some, role] at opening
      cases opening
    · exact pair
  obtain ⟨kind, opening, closing⟩ := nested.kinds first index pair
  obtain rfl : kind = .subquery := by
    rw [TokenSequence.role, found, Option.bind_some, role] at closing
    cases closing
    rfl
  have inside : first < sequence.size := by
    have there : first < sequence.tokens.size := by
      rw [TokenSequence.role, Option.bind_eq_some_iff] at opening
      obtain ⟨opener, stored, -⟩ := opening
      exact (Array.getElem?_eq_some_iff.mp stored).1
    exact there
  rw [(WellNested.matching_of_pair nested pair).2]
  obtain ⟨⟨context, before, here, after⟩, within, rfl⟩ := exists_spot annotated inside
  have whole : lexemes = before.reverse ++ here :: after := within.whole
  have opens : (context.sign here).paren = some ⟨.subquery, .opening⟩ := by
    have sign := sign?_here annotated whole
    have place : context = (Context.start lexemes).after before.reverse := within.context
    have same : (sequence.cursor before.length).paren? = sequence.role before.length := by
      rw [Cursor.paren?, Cursor.token?_cursor]
      rfl
    rw [← place] at sign
    rw [Places.paren?, sign] at same
    exact same.trans opening
  obtain ⟨side, kind⟩ := sign_opens.mp opens
  have keyword := @parenKind_subquery context
  rw [decide_eq_true kind] at keyword
  have last : context.last = before.head? := last_of_within within
  rw [(shows_next annotated whole).normalized]
  cases found : after.head? with
  | none => decide
  | some next =>
    obtain ⟨rest, rfl⟩ := List.head?_eq_some_iff.mp found
    rw [whole] at queryless
    have told := beginsQuery_of_queryless queryless
    rw [List.getLast?_reverse, Option.or_none, ← last, beginsQuery, side?_eq_opening.mp side,
      ← keyword, Bool.true_and, Bool.true_and, Bool.or_eq_false_iff] at told
    exact told.2

/-- No parenthesis that holds a sub-query begins one that is analyzed. -/
theorem bodiless_queryless : Subquery.bodies sequence = {} := by
  have nested := WellNested.annotate_wellNested annotated
  have none (close : Cursor) (member : close ∈ sequence.cursors) : Subquery.named? close = Option.none := by
    obtain ⟨index, inside, rfl⟩ := Cursor.mem_cursors member
    cases closes : (sequence.cursor index).closes .subquery with
    | false => simp [Subquery.named?, closes]
    | true =>
      have other : ["SELECT", "WITH"].contains (sequence.cursor index).matching.next.normalized = false := by
        cases opened : (sequence.cursor index).matching.index with
        | none =>
          have nowhere : (sequence.cursor index).matching.next = Cursor.empty sequence := by
            rw [Cursor.next, opened]
            rfl
          rw [nowhere, (shows_empty sequence).normalized]
          decide
        | some first => exact queryless_behind annotated queryless closes opened
      simp only [Subquery.named?, other, Bool.and_false, Bool.false_and, Bool.false_eq_true, if_false]
  rw [Subquery.bodies, List.filterMap_eq_nil_iff.mpr none]
  rfl

end Queries

section Statement

variable {selection : CallSelection} (formed : selection.WellFormed)
include formed

theorem lists_source {context : Context} : (context.step selection.source).Lists "FROM" := by
  obtain ⟨keyword, normalized⟩ := normalized_of_word (by decide) formed.source
  obtain ⟨clause, outside, -⟩ := step_significant context selection.source keyword (by rw [normalized]; decide)
  exact ⟨by rw [clause, normalized], outside, isTableWord_reserved (by decide) (by decide)⟩

theorem introduces_source : selection.source.Introduces "FROM" := by
  obtain ⟨keyword, normalized⟩ := normalized_of_word (by decide) formed.source
  have kind : selection.source.kind = .keyword := eq_of_beq keyword
  refine ⟨by simp [isDot, kind], ?_, by simp [isPunctuation, kind], .inl normalized⟩
  simp [Lexeme.reads, normalized]

/-- The names that are taken for tables, call by call, and the table. -/
theorem tables_selection (context : Context) (bare : context.opened = []) :
    (spots context [] selection.lexemes []).filterMap Spot.table? =
      selection.calls.flatMap FunctionCall.tables ++ [selection.table.value] := by
  obtain ⟨keyword, normalized⟩ := normalized_of_word (by decide) formed.select
  obtain ⟨clause, outside, opened⟩ := step_significant context selection.select keyword (by rw [normalized]; decide)
  have selecting : Selecting (context.step selection.select) := ⟨by rw [clause, normalized], outside, opened.trans bare⟩
  obtain ⟨first, others⟩ := List.forall_mem_cons.mp formed.calls
  have more (entry : Lexeme × FunctionCall) (member : entry ∈ selection.more) :
      entry.1.isPunctuation "," = true ∧ entry.2.WellFormed :=
    ⟨formed.commas entry member, others _ (List.mem_map_of_mem member)⟩
  have calls :
      (spots (context.step selection.select) [selection.select] (CallSelection.listed selection.call selection.more)
      ([selection.source, selection.table] ++ [])).filterMap Spot.table? =
          selection.calls.flatMap FunctionCall.tables :=
    (tables_listed first more selecting).1
  have select : Spot.table? ⟨context, [], selection.select, CallSelection.listed selection.call selection.more ++
      [selection.source, selection.table] ++ []⟩ = none := (silent_of_other (noName_of_keyword keyword)).1
  have source (inside : Context) (before : List Lexeme) :
      (spots inside before [selection.source, selection.table] []).filterMap Spot.table? = [selection.table.value] := by
    have word := (normalized_of_word (by decide) formed.source).1
    have silent : Spot.table? ⟨inside, before, selection.source, [selection.table] ++ []⟩ = none :=
      (silent_of_other (noName_of_keyword word)).1
    have named : Spot.table? ⟨inside.step selection.source, selection.source :: before, selection.table, [] ++ []⟩ =
        some selection.table.value := table?_start (lists_source formed) formed.table (introduces_source formed) rfl
    rw [filterMap_cons, silent, filterMap_cons, named]
    rfl
  rw [CallSelection.lexemes, filterMap_cons, select, spots_append, List.filterMap_append, calls, source]
  rfl

variable {limits : Limits} {text : String} {sequence : TokenSequence}
    (reading : Reading limits text selection.lexemes sequence)
include reading

theorem kind_selection : StatementKind.ofTokens sequence = .ok .select := by
  obtain ⟨keyword, normalized⟩ := normalized_of_word (by decide) formed.select
  have noParen : selection.select.value ≠ "(" := by
    intro same
    have word := formed.select.word
    rw [isWord, same] at word
    simp at word
  refine reading.kind rfl noParen ?_
  rw [normalized]
  rfl

theorem facts_selection (queryless : isQueryless none selection.lexemes = true) :
    ∃ facts, (Query.ofText text limits).facts = .ok facts ∧
    facts.tables = distinct (selection.calls.flatMap FunctionCall.tables ++ [selection.table.value]) := by
  obtain ⟨keyword, normalized⟩ := normalized_of_word (by decide) formed.select
  have noWith : selection.lexemes.head?.any (reads "WITH") = false := by
    have other : selection.select.reads "WITH" = false := by simp [Lexeme.reads, normalized]
    exact other
  obtain ⟨analyze, within⟩ := exists_analyze limits text
  obtain ⟨facts, found, tables, -⟩ := @exists_facts_bodiless sequence .select analyze rfl
    (clauseless_queryless reading.annotated queryless noWith) (bodiless_queryless reading.annotated queryless)
  refine ⟨facts, ?_, ?_⟩
  · change factsAt limits 0 text = .ok facts
    rw [within, statementFacts, reading.tokens]
    simp only [bind, Except.bind, kind_selection formed reading, found]
  · rw [tables, names_eq reading.annotated, tables_selection formed _ rfl]
    exact List.filter_eq_self.mpr fun _ _ => rfl

omit reading in
/-- With the parentheses of its calls the statement is one deeper than their arguments. -/
theorem shallow_selection {bound : Nat}
    (deep : ∀ call ∈ selection.calls, ∀ place, heightAt (sides call.arguments) place < bound) :
    Selections.Shallow (sides selection.lexemes) bound := by
  have flat {part : List Lexeme} (level : ∀ lexeme ∈ part, lexeme.side? = none) :
      Selections.Shallow (sides part) bound :=
    Selections.shallow_level level bound
  have keyword {word : String} {lexeme : Lexeme} (letters : word.toList.all (·.isUpper) = true)
      (bare : lexeme.IsBareWord word) :
      lexeme.side? = none := side?_of_keyword (normalized_of_word letters bare).1
  have call (call : FunctionCall) (member : call ∈ selection.calls) :
      Selections.Shallow (sides call.lexemes) bound := by
    obtain ⟨function, opening, balanced, closing⟩ := formed.calls call member
    have lower := deep call member
    obtain ⟨less, rfl⟩ : ∃ less, bound = less + 1 := ⟨bound - 1, by have := lower 0; rw [heightAt_zero] at this; omega⟩
    have inner : Selections.Shallow (sides call.arguments) less :=
      ⟨fun place => ⟨balanced.before place, by have := lower place; rw [heightAt] at this; omega⟩, balanced.whole⟩
    have parts :
        sides call.lexemes = sides [call.function] ++ some .opening :: (sides call.arguments ++ [some .closing]) := by
      simp [FunctionCall.lexemes, sides, side?_eq_opening.mpr opening, side?_eq_closing.mpr closing]
    rw [parts]
    exact (flat (List.forall_mem_singleton.mpr (wordless_of_name function).1)).append inner.wrap
  have listed (first : FunctionCall) (more : List (Lexeme × FunctionCall))
      (inside : ∀ call ∈ first :: more.map (·.2), call ∈ selection.calls)
      (commas : ∀ entry ∈ more, entry.1.isPunctuation "," = true) :
      Selections.Shallow (sides (CallSelection.listed first more)) bound := by
    induction more generalizing first with
    | nil =>
      rw [CallSelection.listed, List.flatMap_nil, List.append_nil]
      exact call first (inside first List.mem_cons_self)
    | cons entry more ih =>
      obtain ⟨first', others⟩ := List.forall_mem_cons.mp inside
      obtain ⟨isComma, commas⟩ := List.forall_mem_cons.mp commas
      have parts : sides (CallSelection.listed first (entry :: more)) =
          sides first.lexemes ++ (sides [entry.1] ++ sides (CallSelection.listed entry.2 more)) := by
        simp [CallSelection.listed, sides]
      rw [parts]
      exact (call first first').append
        ((flat (List.forall_mem_singleton.mpr (side?_of_comma isComma))).append (ih entry.2 others commas))
  have parts : sides selection.lexemes = sides [selection.select] ++
      (sides (CallSelection.listed selection.call selection.more) ++ sides [selection.source, selection.table]) := by
    simp [CallSelection.lexemes, sides]
  rw [parts]
  refine (flat (List.forall_mem_singleton.mpr (keyword (by decide) formed.select))).append
    ((listed _ _ (fun _ member => member) formed.commas).append (flat ?_))
  exact List.forall_mem_cons.mpr ⟨keyword (by decide) formed.source,
    List.forall_mem_singleton.mpr (wordless_of_name formed.table).1⟩

end Statement

/-- Where no query begins among the arguments, a statement that selects calls has facts. Its tables are the
names that each call takes for tables and the one behind FROM, so that it has other tables exactly where a call
takes another name for one. A name directly behind FROM, or another keyword before tables, is always taken, and
without such a keyword none is. -/
theorem tables_calls {selection : CallSelection} (formed : selection.WellFormed) {text : String} {limits : Limits}
    (read : Lexeme.ofText (normalize text.toList) = .ok selection.lexemes)
    (queryless : isQueryless none selection.lexemes = true)
    (few : selection.lexemes.length ≤ limits.maxTokens)
    (deep : ∀ call ∈ selection.calls, ∀ place, heightAt (sides call.arguments) place < limits.maxNestingDepth) :
    ∃ facts, (Query.ofText text limits).facts = .ok facts ∧
      facts.tables = distinct (selection.calls.flatMap FunctionCall.tables ++ [selection.table.value]) ∧
      (facts.tables = [selection.table.value] ↔
        ∀ call ∈ selection.calls, ∀ name ∈ call.tables, name = selection.table.value) ∧
      ∀ call ∈ selection.calls,
        ((∀ lexeme ∈ call.arguments, lexeme.isKeyword = true → Keyword.precedesTables lexeme.normalized = false) →
          call.tables = []) ∧
        ∀ front keyword name back, call.arguments = front ++ keyword :: name :: back → keyword.isKeyword = true →
          Keyword.precedesTables keyword.normalized = true → name.isName = true → back.head?.any isDot = false →
          name.value ∈ facts.tables := by
  obtain ⟨sequence, annotated⟩ := Selections.annotate_of_shallow (shallow_selection formed deep) (Nat.le_refl _)
  have reading : Reading limits text selection.lexemes sequence :=
    ⟨tokenize_ok_iff.mpr ⟨_, read, few, annotated⟩, annotated⟩
  obtain ⟨facts, found, tables⟩ := facts_selection formed reading queryless
  refine ⟨facts, found, tables, ?_, fun call member =>
    ⟨fun none => ?_, fun front keyword name back whole isKeyword word named ends => ?_⟩⟩
  · rw [tables, distinct_eq_singleton]
    simp only [List.mem_append, List.mem_flatMap, List.mem_singleton]
    refine ⟨fun same call member name inside => same.2 name (.inl ⟨call, member, inside⟩), fun same => ⟨by simp, ?_⟩⟩
    rintro name (⟨call, member, inside⟩ | rfl)
    · exact same call member name inside
    · rfl
  · have select : Keyword.precedesTables "SELECT" = false := by decide
    exact tables_eq_nil (List.forall_mem_cons.mpr ⟨select, List.forall_mem_singleton.mpr select⟩) none
  · rw [tables, mem_distinct]
    refine List.mem_append_left _ (List.mem_flatMap.mpr ⟨call, member, ?_⟩)
    rw [FunctionCall.tables, whole]
    exact mem_tables_behind isKeyword word named ends

/-- The column that EXTRACT takes its year from is a table of the statement. -/
theorem tables_calls_extract : ∃ facts,
    (Query.ofText "SELECT EXTRACT(YEAR FROM c), COUNT(d) FROM t" {}).facts = .ok facts ∧ facts.tables = ["c", "t"] := by
  let name (text : String) (apart : Bool) : Lexeme := ⟨.name, text, none, apart⟩
  let mark (text : String) : Lexeme := ⟨.punctuation, text, none, false⟩
  let keyword (text : String) : Lexeme := ⟨.keyword, text, none, true⟩
  let selection : CallSelection := {
    select := keyword "SELECT"
    call := ⟨name "EXTRACT" true, mark "(", [name "YEAR" false, keyword "FROM", name "c" true], mark ")"⟩
    more := [(mark ",", ⟨name "COUNT" true, mark "(", [name "d" false], mark ")"⟩)]
    source := keyword "FROM"
    table := name "t" true }
  have flat : ∀ call ∈ selection.calls, ∀ lexeme ∈ call.arguments, lexeme.side? = none := by decide
  have shallow (call : FunctionCall) (member : call ∈ selection.calls) : Selections.Shallow (sides call.arguments) 0 :=
    Selections.shallow_level (flat call member) 0
  have parts : ∀ call ∈ selection.calls, call.function.isName = true ∧ call.opening.isPunctuation "(" = true ∧
      call.closing.isPunctuation ")" = true := by decide
  have formed : selection.WellFormed := ⟨⟨by decide, rfl⟩, fun call member =>
    ⟨(parts call member).1, (parts call member).2.1, (shallow call member).balanced, (parts call member).2.2⟩,
    by decide, ⟨by decide, rfl⟩, rfl⟩
  have read : Lexeme.ofText (normalize "SELECT EXTRACT(YEAR FROM c), COUNT(d) FROM t".toList) =
      .ok selection.lexemes := by decide +kernel
  obtain ⟨facts, found, tables, -⟩ := @tables_calls selection formed _ {} read (by decide) (by decide)
    fun call member place => Int.lt_of_le_of_lt ((shallow call member).inside place).2 (by decide)
  exact ⟨facts, found, tables.trans (by decide)⟩

end QueryFacts.Proofs.CallArguments

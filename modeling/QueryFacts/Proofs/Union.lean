import QueryFacts.Proofs.Acceptance
import QueryFacts.Proofs.Clauses
import QueryFacts.Proofs.StandaloneBody
import QueryFacts.Proofs.Unnested

/-! The tables of a union. What the annotation knows when a query ends does not reach past the
keyword that begins the next one, and a pass over the tables looks no further back than that. -/

namespace QueryFacts

/-- The tables of a statement without those that its WITH clauses declare. -/
def Table.ofStatement (sequence : TokenSequence) : Except Error (List String) := do
  let clause ← WithClause.ofTokens sequence
  return Table.names sequence clause.names

end QueryFacts

namespace QueryFacts.Proofs.Union
open Lexeme Spots NestingRun Clauses Selections StandaloneBody

theorem isWord_of_reads {lexeme : Lexeme} (select : lexeme.reads "SELECT" = true) : lexeme.isWord "CREATE" = false := by
  rw [Bool.eq_false_iff]
  intro create
  simp only [reads, Bool.and_eq_true, beq_iff_eq] at select
  have kind : lexeme.kind = .keyword := by simpa [isKeyword] using select.1
  have word := Spelling.normalForm_of_spelling (by simp) (Spelling.spelling_of_isWord create)
  have same := select.2
  cases quote : lexeme.quote with
  | none => simp [normalized, kind, quote, word] at same
  | some mark =>
    have value : lexeme.value = "SELECT" := by simpa [normalized, kind, quote] using same
    simp [isWord, value] at create

/-- A statement with SELECT as its first keyword defines no table. -/
theorem isCreateTable_of_select {lexemes : List Lexeme}
    (selects : (lexemes.find? Lexeme.isKeyword).any (reads "SELECT") = true) : isCreateTable lexemes = false := by
  rw [← List.head?_filter] at selects
  rw [isCreateTable]
  split
  next create second rest words =>
    rw [words] at selects
    rw [isWord_of_reads selects, Bool.false_and]
  next => rfl

variable {context : Context}

theorem headers_step {lexeme : Lexeme} (noWith : lexeme.reads "WITH" = false) (finished : context.headers = []) :
    (context.step lexeme).headers = [] := by
  unfold Context.step
  split
  · exact finished
  · split
    · exact finished
    · simp [finished]
  · split
    next keyword =>
      have other : lexeme.normalized ≠ "WITH" := by simpa [reads, keyword] using noWith
      simp [Context.headersAfter, other, finished]
    next => exact finished

theorem headers_after {part : List Lexeme} (noWith : ∀ lexeme ∈ part, lexeme.reads "WITH" = false)
    (finished : context.headers = []) : (context.after part).headers = [] := by
  induction part generalizing context with
  | nil => exact finished
  | cons lexeme part ih =>
    exact ih (fun other member => noWith other (List.mem_cons_of_mem _ member))
      (headers_step (noWith lexeme List.mem_cons_self) finished)

theorem awaits_step (lexeme : Lexeme) (never : context.awaitsColumns = false) :
    (context.step lexeme).awaitsColumns = false := by
  unfold Context.step
  split
  · simp [never]
  · split <;> exact never
  · split <;> exact never

theorem awaits_after (part : List Lexeme) (never : context.awaitsColumns = false) :
    (context.after part).awaitsColumns = false := by
  induction part generalizing context with
  | nil => exact never
  | cons lexeme part ih => exact ih (awaits_step lexeme never)

/-- No parenthesis and no WITH clause is open, and no column list of a table is to come. -/
structure Clear (context : Context) : Prop where
  opened : context.opened = []
  headers : context.headers = []
  awaits : context.awaitsColumns = false

/-- The keyword that begins a query leaves nothing of what came before it. -/
theorem Clear.step_select (clear : Clear context) {select : Lexeme} (begins : select.reads "SELECT" = true) :
    context.step select = { last := some select, clause := some "SELECT" } := by
  obtain ⟨opened, headers, awaits⟩ := clear
  simp only [reads, Bool.and_eq_true, beq_iff_eq] at begins
  obtain ⟨keyword, word⟩ := begins
  have significant : Keyword.isInsignificant "SELECT" = false := by decide
  have none : context.headersAfter "SELECT" = [] := by simp [Context.headersAfter, headers]
  simp [Context.step, side?_of_keyword keyword, keyword, word, significant, none, opened, awaits]

theorem clear_of_annotated {limits : Limits} {lexemes : List Lexeme} {sequence : TokenSequence}
    (annotated : annotate limits lexemes = .ok sequence) (noWith : ∀ lexeme ∈ lexemes, lexeme.reads "WITH" = false)
    (query : isCreateTable lexemes = false) : Clear ((Context.start lexemes).after lexemes) := by
  obtain ⟨final, ends, closed, -⟩ := annotate_ok_iff.mp annotated
  have reached := Signs.contextOf_reaches ends
  rw [List.take_length] at reached
  refine ⟨?_, headers_after noWith rfl, awaits_after lexemes query⟩
  rw [← reached, Signs.contextOf, closed]
  rfl

/-- Of what comes after a part, the pass sees whether it is a dot. -/
theorem tables_before {part before after : List Lexeme} (noDot : after.head?.any isDot = false) :
    (spots context before part after).filterMap Spot.table? = (spots context before part []).filterMap Spot.table? := by
  induction part generalizing context before with
  | nil => rfl
  | cons here part ih =>
    have next : (part ++ after).head?.any isDot = (part ++ []).head?.any isDot := by
      cases part with
      | nil => exact noDot
      | cons => rfl
    have same :
        Spot.table? ⟨context, before, here, part ++ after⟩ = Spot.table? ⟨context, before, here, part ++ []⟩ := by
      simp only [Spot.table?, Spot.next, next]
      rfl
    rw [filterMap_cons, filterMap_cons, same, ih]

/-- A dotted name ends in front of a lexeme that is no part of one. -/
theorem nameParts_stop {stop : Lexeme} (noDot : stop.isDot = false) (noName : stop.isName = false)
    (front one two : List Lexeme)
    (here : Lexeme) : nameParts (front ++ stop :: one) here = nameParts (front ++ stop :: two) here := by
  match front with
  | [] =>
    rw [List.nil_append, List.nil_append, nameParts_undotted (undotted_cons noDot one),
      nameParts_undotted (undotted_cons noDot two)]
  | [dot] => simp only [List.singleton_append, nameParts, noName, Bool.and_false, Bool.false_eq_true, if_false]
  | dot :: name :: front =>
    have ih := nameParts_stop noDot noName front one two name
    simp only [List.cons_append, nameParts, ih]

/-- Of what comes before a part, the pass sees nothing behind a lexeme that is no part of a name. -/
theorem tables_after {stop : Lexeme} (noDot : stop.isDot = false) (noName : stop.isName = false)
    {front one two part after : List Lexeme} :
    (spots context (front ++ stop :: one) part after).filterMap Spot.table? =
      (spots context (front ++ stop :: two) part after).filterMap Spot.table? := by
  induction part generalizing context front with
  | nil => rfl
  | cons here part ih =>
    have previous : (front ++ stop :: one).head? = (front ++ stop :: two).head? := by cases front <;> rfl
    have same : Spot.table? ⟨context, front ++ stop :: one, here, part ++ after⟩ =
        Spot.table? ⟨context, front ++ stop :: two, here, part ++ after⟩ := by
      simp only [Spot.table?, Spot.previous, previous, nameParts_stop noDot noName front one two here]
      rfl
    rw [filterMap_cons, filterMap_cons, same]
    exact congrArg _ (@ih (context.step here) (here :: front))

/-- Keywords name no tables. -/
theorem tables_keywords {part before after : List Lexeme} (keywords : ∀ lexeme ∈ part, lexeme.isKeyword = true) :
    (spots context before part after).filterMap Spot.table? = [] := by
  refine List.filterMap_eq_nil_iff.mpr fun spot member => ?_
  have keyword := keywords spot.here (here_mem member)
  have noName : spot.here.isName = false := by
    have kind : spot.here.kind = .keyword := by simpa [isKeyword] using keyword
    simp [isName, kind]
  simp [Spot.table?, noName]

section Lists

variable {α : Type} [DecidableEq α]

/-- What is new is added at the end. -/
theorem addAllNew_eq_append (items values : List α) :
    addAllNew items values = items ++ (distinct values).filter (· ∉ items) := by
  induction values using List.reverseRecOn with
  | nil => exact (List.append_nil items).symm
  | append_singleton values value ih =>
    have last (start : List α) : addAllNew start (values ++ [value]) = addNew (addAllNew start values) value :=
      addAllNew_append ..
    rw [last, distinct, last, ← distinct, ih]
    by_cases known : value ∈ items
    · rw [filter_addNew_of_neg (by simpa using known), addNew_of_mem (List.mem_append_left _ known)]
    · rw [filter_addNew_of_pos (by simpa using known)]
      unfold addNew
      simp only [List.mem_append, known, false_or]
      split <;> simp

end Lists

/-- Two statements one after the other are annotated where each of them is. -/
theorem annotate_append {limits : Limits} {first rest : List Lexeme}
    (left : ∃ sequence, annotate limits first = .ok sequence)
    (right : ∃ sequence, annotate limits rest = .ok sequence) :
    ∃ sequence, annotate limits (first ++ rest) = .ok sequence := by
  have shallow {lexemes : List Lexeme} (accepted : ∃ sequence, annotate limits lexemes = .ok sequence) :
      Shallow (sides lexemes) limits.maxNestingDepth := by
    obtain ⟨balanced, bounded⟩ := Acceptance.annotate_accepts_iff.mp accepted
    exact ⟨fun count => ⟨balanced.before count, bounded count⟩, balanced.whole⟩
  have both := (shallow left).append (shallow right)
  rw [← sides_append] at both
  exact annotate_of_shallow both (Nat.le_refl _)

theorem ofStatement_eq {limits : Limits} {lexemes : List Lexeme} {sequence : TokenSequence}
    (annotated : annotate limits lexemes = .ok sequence) (noWith : ∀ lexeme ∈ lexemes, lexeme.reads "WITH" = false) :
    Table.ofStatement sequence =
        .ok (distinct ((spots (Context.start lexemes) [] lexemes []).filterMap Spot.table?)) := by
  rw [Table.ofStatement, Unnested.withClause_bare annotated noWith]
  change Except.ok (Table.names sequence []) = _
  rw [names_eq annotated]
  exact congrArg _ (List.filter_eq_self.mpr fun _ _ => rfl)

/-- Where the annotation of a second query starts anew, its tables are those that it has on its own. -/
theorem tables_spots {first middle rest : List Lexeme} {union select : Lexeme} (begins : select.reads "SELECT" = true)
    (keywords : ∀ lexeme ∈ union :: middle, lexeme.isKeyword = true)
    (clear : Clear (Context.after {} (first ++ union :: middle))) :
    (spots {} [] (first ++ (union :: middle) ++ select :: rest) []).filterMap Spot.table? =
      (spots {} [] first []).filterMap Spot.table? ++ (spots {} [] (select :: rest) []).filterMap Spot.table? := by
  have select' : select.isKeyword = true := (Bool.and_eq_true _ _ ▸ begins).1
  have kind {lexeme : Lexeme} (keyword : lexeme.isKeyword = true) :
      lexeme.kind = .keyword := by simpa [isKeyword] using keyword
  have noDot {lexeme : Lexeme} (keyword : lexeme.isKeyword = true) :
      lexeme.isDot = false := by simp [isDot, kind keyword]
  have noName : select.isName = false := by simp [isName, kind select']
  have fresh : Clear {} := ⟨rfl, rfl, rfl⟩
  have silent (context : Context) (before after : List Lexeme) :
      Spot.table? ⟨context, before, select, after⟩ = none := by
    simp [Spot.table?, noName]
  have next : ((union :: middle) ++ select :: rest ++ []).head?.any isDot = false :=
    noDot (keywords union List.mem_cons_self)
  have stops (before : List Lexeme) (context : Context) :
      (spots context (select :: before) rest []).filterMap Spot.table? =
      (spots context [select] rest []).filterMap Spot.table? :=
    @tables_after _ _ (noDot select') noName [] before [] rest []
  rw [List.append_assoc, spots_append, spots_append, List.filterMap_append, List.filterMap_append,
    tables_keywords keywords, List.nil_append, ← Context.after_append, tables_before next,
    filterMap_cons, filterMap_cons, silent, silent, clear.step_select begins, fresh.step_select begins, stops]

/-- The tables of a union are those of its first query and then those of the second that are new. -/
theorem tables_union {limits : Limits} {first second : List Lexeme} {union : Lexeme} {quantifier : Option Lexeme}
    {one two : TokenSequence} (left : annotate limits first = .ok one) (right : annotate limits second = .ok two)
    (noWith : ∀ lexeme ∈ first ++ second, lexeme.reads "WITH" = false)
    (selects : (first.find? Lexeme.isKeyword).any (reads "SELECT") = true)
    (begins : second.head?.any (reads "SELECT") = true)
    (unites : union.reads "UNION" = true) (all : ∀ word ∈ quantifier, word.reads "ALL" = true) :
    ∃ whole tables more, annotate limits (first ++ (union :: quantifier.toList) ++ second) = .ok whole ∧
      (∀ text, ofText text = .ok (first ++ (union :: quantifier.toList) ++ second) →
        (first ++ (union :: quantifier.toList) ++ second).length ≤ limits.maxTokens →
          tokenize limits text = .ok whole) ∧
      Table.ofStatement one = .ok tables ∧ Table.ofStatement two = .ok more ∧
      Table.ofStatement whole = .ok (tables ++ more.filter (· ∉ tables)) := by
  obtain ⟨select, rest, rfl, begins⟩ : ∃ select rest, second = select :: rest ∧ select.reads "SELECT" = true := by
    cases second with
    | nil => cases begins
    | cons select rest => exact ⟨select, rest, rfl, begins⟩
  let middle := union :: quantifier.toList
  have words : ∀ lexeme ∈ middle, lexeme.isKeyword = true ∧ lexeme.reads "WITH" = false := by
    have other {lexeme : Lexeme} {word : String} (reading : lexeme.reads word = true) (apart : word ≠ "WITH") :
        lexeme.isKeyword = true ∧ lexeme.reads "WITH" = false := by
      simp only [reads, Bool.and_eq_true, beq_iff_eq] at reading
      exact ⟨reading.1, by simp [reads, reading.2, apart]⟩
    intro lexeme member
    rcases List.mem_cons.mp member with rfl | member
    · exact other unites (by simp)
    · exact other (all lexeme (Option.mem_toList.mp member)) (by simp)
  have flat : ∀ lexeme ∈ middle, lexeme.side? = none := fun lexeme member => side?_of_keyword (words lexeme member).1
  have apartFirst : ∀ lexeme ∈ first, lexeme.reads "WITH" = false :=
    fun lexeme member => noWith lexeme (List.mem_append_left _ member)
  have apartSecond : ∀ lexeme ∈ select :: rest, lexeme.reads "WITH" = false := fun lexeme member =>
    noWith lexeme (List.mem_append_right _ member)
  have apart : ∀ lexeme ∈ first ++ middle ++ select :: rest, lexeme.reads "WITH" = false := by
    simp only [List.forall_mem_append]
    exact ⟨⟨apartFirst, fun lexeme member => (words lexeme member).2⟩, apartSecond⟩
  obtain ⟨whole, annotated⟩ : ∃ whole, annotate limits (first ++ middle ++ select :: rest) = .ok whole := by
    have between : Shallow (sides middle) limits.maxNestingDepth := shallow_flat (by simpa [sides] using flat) _
    exact annotate_append (annotate_append ⟨one, left⟩ (annotate_of_shallow between (Nat.le_refl _))) ⟨two, right⟩
  have firstQuery : isCreateTable first = false := isCreateTable_of_select selects
  have wholeQuery : isCreateTable (first ++ middle ++ select :: rest) = false := by
    refine isCreateTable_of_select ?_
    rw [List.append_assoc, List.find?_append]
    cases found : first.find? Lexeme.isKeyword with
    | none => rw [found] at selects; cases selects
    | some lexeme => rwa [found] at selects
  have secondQuery : isCreateTable (select :: rest) = false := by
    refine isCreateTable_of_select ?_
    have keyword : select.isKeyword = true := (Bool.and_eq_true _ _ ▸ begins).1
    rwa [List.find?_cons_of_pos keyword]
  have starts {lexemes : List Lexeme} (query : isCreateTable lexemes = false) : Context.start lexemes = {} := by
    rw [Context.start, query]
  -- After the keyword of the second query nothing is left of the first.
  have clear : Clear (Context.after {} (first ++ middle)) := by
    obtain ⟨opened, headers, awaits⟩ := clear_of_annotated left apartFirst firstQuery
    rw [Context.after_append, ← starts firstQuery]
    exact ⟨(opened_after flat).trans opened, headers_after (fun lexeme member => (words lexeme member).2) headers,
      awaits_after middle awaits⟩
  refine ⟨whole, _, _, annotated, fun text read few => tokenize_ok_iff.mpr ⟨_, read, few, annotated⟩,
    ofStatement_eq left apartFirst, ofStatement_eq right apartSecond, ?_⟩
  rw [ofStatement_eq annotated apart, starts wholeQuery, starts firstQuery, starts secondQuery,
    tables_spots begins (fun lexeme member => (words lexeme member).1) clear, distinct, addAllNew_append,
    addAllNew_eq_append]
  rfl

/-- A table that both queries name is listed with the first. -/
theorem tables_union_shared : ∃ sequence,
    tokenize {} "SELECT a FROM (SELECT b FROM t JOIN u) s UNION ALL SELECT f(c) FROM u, v".toList = .ok sequence ∧
      Table.ofStatement sequence = .ok ["t", "u", "v"] := by
  let first := (ofText "SELECT a FROM (SELECT b FROM t JOIN u) s".toList).toOption.getD []
  let second := (ofText "SELECT f(c) FROM u, v".toList).toOption.getD []
  let union : Lexeme := ⟨.keyword, "UNION", none, true⟩
  let all : Lexeme := ⟨.keyword, "ALL", none, true⟩
  have seen : (annotate {} first >>= Table.ofStatement).toOption = some ["t", "u"] ∧
      (annotate {} second >>= Table.ofStatement).toOption = some ["u", "v"] ∧
      (ofText "SELECT a FROM (SELECT b FROM t JOIN u) s UNION ALL SELECT f(c) FROM u, v".toList).toOption =
        some (first ++ [union, all] ++ second) := by decide +kernel
  obtain ⟨firstTables, secondTables, read⟩ := seen
  cases left : annotate {} first with
  | error error => rw [left] at firstTables; cases firstTables
  | ok one =>
    cases right : annotate {} second with
    | error error => rw [right] at secondTables; cases secondTables
    | ok two =>
      rw [left] at firstTables
      rw [right] at secondTables
      obtain ⟨whole, tables, more, -, tokenized, tables', more', joined⟩ := tables_union left right (by decide +kernel)
        (by decide +kernel) (by decide +kernel) (show union.reads "UNION" = true by decide +kernel)
        (show ∀ word ∈ some all, word.reads "ALL" = true by decide)
      obtain rfl : ["t", "u"] = tables := Except.ok.inj ((ok_of_toOption firstTables).symm.trans tables')
      obtain rfl : ["u", "v"] = more := Except.ok.inj ((ok_of_toOption secondTables).symm.trans more')
      exact ⟨whole, tokenized _ (ok_of_toOption read) (by decide +kernel), joined⟩

end QueryFacts.Proofs.Union

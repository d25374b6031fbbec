import QueryFacts.Proofs.ColumnSpots
import QueryFacts.Proofs.MeantColumns
import QueryFacts.Proofs.Selections.Signs
import QueryFacts.Proofs.Spots
import QueryFacts.Query

/-! Statements without queries in them: no WITH clause, and SELECT at most as the first word. The
analysis of such a statement ends with facts, whose tables and aliases of tables are those that
the two passes over its lexemes find. -/

namespace QueryFacts.Proofs.Unnested
open Lexeme PlainText SelectList Spots NestingRun

section Facts

private theorem foldlM_total {α β ε : Type} {step : β → α → Except ε β}
    (total : ∀ state item, ∃ next, step state item = .ok next)
    (items : List α) (start : β) : ∃ final, items.foldlM step start = .ok final := by
  induction items generalizing start with
  | nil => exact ⟨start, rfl⟩
  | cons item items ih =>
    obtain ⟨next, here⟩ := total start item
    obtain ⟨final, later⟩ := ih next
    exact ⟨final, by rw [List.foldlM_cons, here]; exact later⟩

/-- Without aliases and bodies a column means itself. -/
theorem meaning_bare (spelled : String) : Column.meaning {} {} spelled = .ok ([spelled], spelled) := by
  unfold Column.meaning
  split <;> rfl

private theorem scan_total (tableAliases : NameMap String) (scan : Column.Scan) (mention : Column.Mention) :
    ∃ after, scan.add tableAliases {} mention = .ok after := by
  cases mention with
  | aliasName name sec => exact ⟨_, rfl⟩
  | column spelled sec =>
    obtain ⟨found, means⟩ : ∃ found, Column.meaning tableAliases {} spelled = .ok found := by
      unfold Column.meaning
      split
      · exact ⟨_, rfl⟩
      · split
        · exact ⟨_, rfl⟩
        · exact ⟨_, rfl⟩
    exact ⟨_, by rw [Column.Scan.add, means]; rfl⟩

private theorem addTarget_total (tokens : TokenSequence) (scope : AliasDeclaration.Scope)
    (aliases : NameMap AliasTarget)
    (declaration : AliasDeclaration) :
    ∃ after, AliasDeclaration.addTarget tokens scope {} aliases declaration = .ok after := by
  obtain ⟨columns, found⟩ : ∃ columns, declaration.columns tokens scope {} = .ok columns := by
    unfold AliasDeclaration.columns
    split <;> exact ⟨_, rfl⟩
  unfold AliasDeclaration.addTarget
  split
  · exact ⟨_, rfl⟩
  · exact ⟨_, by rw [found]; rfl⟩

/-- Where there are no bodies to read, nothing can go wrong. -/
theorem exists_facts_bodiless {tokens : TokenSequence} {kind : StatementKind} {analyze : String → Except Error Facts}
    (defined : (kind == .create && definesTableByQuery tokens) = false)
    (clauseless : WithClause.ofTokens tokens = .ok {})
    (bodiless : Subquery.bodies tokens = {}) : ∃ facts, Facts.ofTokens tokens kind analyze = .ok facts ∧
      facts.tables = Table.names tokens [] ∧ facts.tableAliases = Table.aliases tokens (Table.names tokens []) := by
  have bodies : Bodies.ofStatement tokens {} (Subquery.bodies tokens) analyze = {} := by rw [bodiless]; rfl
  obtain ⟨scan, scanned⟩ : ∃ scan, Column.scan tokens kind (Table.aliases tokens (Table.names tokens []))
      (Facts.declaredNames tokens {}) ((Facts.declarations tokens {}).map (·.position)) {} = .ok scan := by
    unfold Column.scan
    split
    · exact ⟨_, rfl⟩
    · exact foldlM_total (scan_total _) _ _
  obtain ⟨aliases, resolved⟩ := foldlM_total (addTarget_total tokens ⟨scan.known, Facts.declaredNames tokens {}⟩)
    (Facts.declarations tokens {}) {}
  have keeps := MeantColumns.keeps_completed tokens {} aliases scan.references
  refine ⟨_, Facts.ofTokens_ok_iff.mpr ⟨defined, {}, scan, aliases, clauseless, ?_, ?_, rfl⟩,
    keeps.tables, keeps.tableAliases⟩
  · rw [bodies]
    exact scanned
  · rw [bodies]
    exact resolved

end Facts

/-- A text, the lexemes that it is read as, and their tokens. -/
structure Reading (limits : Limits) (text : String) (lexemes : List Lexeme) (sequence : TokenSequence) : Prop where
  tokens : queryTokens limits text = .ok sequence
  annotated : annotate limits lexemes = .ok sequence

/-- Without the keyword WITH a statement declares no common table expressions. -/
theorem withClause_bare {limits : Limits} {lexemes : List Lexeme} {sequence : TokenSequence}
    (annotated : annotate limits lexemes = .ok sequence) (noWith : ∀ lexeme ∈ lexemes, lexeme.reads "WITH" = false) :
    WithClause.ofTokens sequence = .ok {} := by
  have empty : sequence.cursors.filter WithClause.isHeader = [] := by
    refine List.filter_eq_nil_iff.mpr fun cursor member => ?_
    obtain ⟨index, -, rfl⟩ := Cursor.mem_cursors member
    have noHeader : (sequence.cursor index).isWord "WITH" = false := by
      rw [(shows_cursor annotated index).isWord]
      cases found : lexemes[index]? with
      | none => rfl
      | some lexeme => exact noWith lexeme (List.mem_of_getElem? found)
    simp [WithClause.isHeader, noHeader]
  rw [WithClause.ofTokens, empty]
  rfl

/-- However deep bodies may be analyzed, the statement itself is. -/
theorem exists_analyze (limits : Limits) (text : String) :
    ∃ analyze, factsAt limits 0 text = statementFacts limits text analyze := by
  unfold factsAt
  cases limits.maxRecursionDepth - 0 with
  | zero => exact ⟨_, rfl⟩
  | succ levels => exact ⟨_, rfl⟩

theorem exists_reading {limits : Limits} {words lexemes : List Lexeme} (readable : Readable words)
    (merged : mergeCompounds words = lexemes) {bound : Nat} (shallow : Selections.Shallow (sides lexemes) bound)
    (deep : bound ≤ limits.maxNestingDepth) (few : lexemes.length ≤ limits.maxTokens) :
    ∃ sequence, Reading limits (String.ofList (written words)) lexemes sequence := by
  obtain ⟨sequence, annotated⟩ := Selections.annotate_of_shallow shallow deep
  have read := ofText_readable readable
  rw [merged] at read
  refine ⟨sequence, ?_, annotated⟩
  rw [queryTokens, String.toList_ofList]
  exact tokenize_ok_iff.mpr ⟨lexemes, read, few, annotated⟩

/-- The kind of a statement is that of its first words. -/
theorem kind_of_annotated {limits : Limits} {lexemes : List Lexeme} {sequence : TokenSequence}
    (annotated : annotate limits lexemes = .ok sequence) {first second : Lexeme} {rest : List Lexeme}
    (begins : lexemes = first :: second :: rest) (noParen : first.value ≠ "(") {kind : StatementKind}
    (words : StatementKind.ofWords? first.normalized second.normalized ((rest.head?.map (·.normalized)).getD "") =
      some kind) :
    StatementKind.ofTokens sequence = .ok kind := by
  obtain ⟨final, ends, -, rfl⟩ := annotate_ok_iff.mp annotated
  have values :=
    ends.map_tokens (fun token => (token.value, token.normalized)) (fun lexeme => (lexeme.value, lexeme.normalized))
    fun token lexeme writes => by rw [writes.value, writes.normalized]
  rw [begins] at values
  unfold StatementKind.ofTokens
  cases tokens : final.tokens.toList with
  | nil => rw [tokens] at values; cases values
  | cons head tail =>
    rw [tokens, List.map_cons, List.map_cons] at values
    obtain ⟨here, later⟩ := List.cons.inj values
    obtain ⟨value, normalized⟩ := Prod.mk.inj here
    have normals : tail.map (·.normalized) = second.normalized :: rest.map (·.normalized) := by
      have each := congrArg (List.map Prod.snd) later
      simpa [List.map_map, Function.comp_def] using each
    have outside : (head :: tail).dropWhile (·.value == "(") = head :: tail :=
      List.dropWhile_cons_of_neg (by simpa [value] using noParen)
    have third :
        (rest.map (·.normalized)).head?.getD "" = (rest.head?.map (·.normalized)).getD "" := by cases rest <;> rfl
    simp only [outside, List.map_cons, normals, List.drop_one, List.tail_cons, third, List.head?_cons, Option.getD_some,
      normalized, words]

namespace Reading

variable {limits : Limits} {text : String} {lexemes : List Lexeme} {sequence : TokenSequence}
  (reading : Reading limits text lexemes sequence)
include reading

theorem kind {first second : Lexeme} {rest : List Lexeme} (begins : lexemes = first :: second :: rest)
    (noParen : first.value ≠ "(")
    {kind : StatementKind} (words : StatementKind.ofWords? first.normalized second.normalized
      ((rest.head?.map (·.normalized)).getD "") = some kind) : StatementKind.ofTokens sequence = .ok kind :=
  kind_of_annotated reading.annotated begins noParen words

theorem clauseless (noWith : ∀ lexeme ∈ lexemes, lexeme.normalized ≠ "WITH") : WithClause.ofTokens sequence = .ok {} :=
  withClause_bare reading.annotated fun lexeme member => by simp [Lexeme.reads, noWith lexeme member]

theorem bodiless (noWith : ∀ lexeme ∈ lexemes, lexeme.normalized ≠ "WITH")
    (noSelect : ∀ lexeme ∈ lexemes.tail, lexeme.normalized ≠ "SELECT") : Subquery.bodies sequence = {} := by
  have none (close : Cursor) (member : close ∈ sequence.cursors) : Subquery.named? close = Option.none := by
    obtain ⟨index, -, rfl⟩ := Cursor.mem_cursors member
    have other : ["SELECT", "WITH"].contains (sequence.cursor index).matching.next.normalized = false := by
      cases opening : (sequence.cursor index).matching.index with
      | none =>
        have nowhere : (sequence.cursor index).matching.next = Cursor.empty sequence := by
          rw [Cursor.next, opening]
          rfl
        rw [nowhere, (shows_empty sequence).normalized]
        decide
      | some first =>
        have there : (sequence.cursor index).matching.next = sequence.cursor (first + 1) := by
          rw [Cursor.next, opening]
          rfl
        rw [there, (shows_cursor reading.annotated (first + 1)).normalized]
        cases found : lexemes[first + 1]? with
        | none => decide
        | some lexeme =>
          have inside : lexeme ∈ lexemes.tail := List.mem_of_getElem? (i := first) (by rw [List.getElem?_tail, found])
          simp [noSelect lexeme inside, noWith lexeme (List.mem_of_mem_tail inside)]
    unfold Subquery.named?
    simp only [other, Bool.and_false, Bool.false_and, Bool.false_eq_true, if_false]
  rw [Subquery.bodies, List.filterMap_eq_nil_iff.mpr none]
  rfl

/-- AS stands in no place where it would define a table by a query. -/
theorem undefined (noAs : ∀ spot, Within lexemes spot → spot.here.reads "AS" = true → spot.context.opened ≠ []) :
    definesTableByQuery sequence = false := by
  rw [definesTableByQuery, List.any_eq_false]
  intro cursor member
  obtain ⟨index, inside, rfl⟩ := Cursor.mem_cursors member
  obtain ⟨spot, within, rfl⟩ := exists_spot reading.annotated inside
  have here := shows_here reading.annotated within.whole
  cases as : (sequence.cursor spot.before.length).isWord "AS" with
  | false => simp
  | true =>
    rw [here.isWord, Option.any_some] at as
    have bare : spot.here.side? ≠ some .closing := by
      rw [Lexeme.reads, Bool.and_eq_true] at as
      rw [side?_of_keyword as.1]
      nofun
    obtain ⟨frame, outer, opened⟩ := List.exists_cons_of_ne_nil (noAs spot within as)
    have enclosed : (sequence.cursor spot.before.length).isInParenthesis = true := by
      rw [ColumnSpots.isInParenthesis_eq reading.annotated within.whole bare, ← within.context, opened]
      rfl
    simp [enclosed]

/-- The facts of a statement without queries in it. -/
theorem exists_facts {kind : StatementKind} (known : StatementKind.ofTokens sequence = .ok kind)
    (defined : (kind == .create && definesTableByQuery sequence) = false)
    (noWith : ∀ lexeme ∈ lexemes, lexeme.normalized ≠ "WITH")
    (noSelect : ∀ lexeme ∈ lexemes.tail, lexeme.normalized ≠ "SELECT") {tables : List String}
    (named : (spots (Context.start lexemes) [] lexemes []).filterMap Spot.table? = tables) :
    ∃ facts, (Query.ofText text limits).facts = .ok facts ∧ facts.tables = distinct tables ∧
      facts.tableAliases =
        NameMap.ofPairs ((spots (Context.start lexemes) [] lexemes []).filterMap (Spot.alias? (distinct tables))) := by
  have names : Table.names sequence [] = distinct tables := by
    rw [names_eq reading.annotated, named]
    exact List.filter_eq_self.mpr fun _ _ => rfl
  obtain ⟨analyze, within⟩ := exists_analyze limits text
  obtain ⟨facts, found, tables', aliases⟩ := @exists_facts_bodiless _ _ analyze defined
    (reading.clauseless noWith) (reading.bodiless noWith noSelect)
  refine ⟨facts, ?_, tables'.trans names, ?_⟩
  · change factsAt limits 0 text = .ok facts
    rw [within, statementFacts, reading.tokens]
    simp only [bind, Except.bind, known, found]
  · rw [aliases, names, aliases_eq reading.annotated]

end Reading

section Inserting

/-- No statement that inserts defines a table. -/
theorem start_inserting (replaces : Bool) (lexemes : List Lexeme) :
    Context.start (ofKeyword (if replaces then "REPLACE" else "INSERT") true :: ofKeyword "INTO" true :: lexemes) =
        {} := by
  have create :
      isCreateTable (ofKeyword (if replaces then "REPLACE" else "INSERT") true :: ofKeyword "INTO" true :: lexemes) =
          false := by
    cases replaces <;> rfl
  rw [Context.start, create]

variable {limits : Limits} {sequence : TokenSequence}

theorem kind_inserting {replaces : Bool} {text : String} {lexemes : List Lexeme} (reading : Reading limits text
      (ofKeyword (if replaces then "REPLACE" else "INSERT") true :: ofKeyword "INTO" true :: lexemes) sequence) :
    StatementKind.ofTokens sequence = .ok (if replaces then .replace else .insert) := by
  have normal :
      (ofKeyword "INSERT" true).normalized = "INSERT" ∧ (ofKeyword "REPLACE" true).normalized = "REPLACE" := by decide
  have inserts (second third : String) :
      StatementKind.ofWords? (ofKeyword "INSERT" true).normalized second third = some .insert := by
    rw [normal.1]
    rfl
  have replacing (second third : String) :
      StatementKind.ofWords? (ofKeyword "REPLACE" true).normalized second third = some .replace := by
    rw [normal.2]
    rfl
  cases replaces with
  | false => exact reading.kind rfl (show "INSERT" ≠ "(" by decide) (inserts _ _)
  | true => exact reading.kind rfl (show "REPLACE" ≠ "(" by decide) (replacing _ _)

end Inserting

end QueryFacts.Proofs.Unnested

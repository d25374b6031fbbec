import QueryFacts.Proofs.ClauseQueries
import QueryFacts.Proofs.MentionSpots

/-! The columns of a statement that selects from one table, by clause. Every name in a clause is a
column of it, whatever is said of the column, and no name is taken for a label. -/

namespace QueryFacts.ClauseQuery

/-- The columns that a clause mentions, one after the other. -/
def usesIn (query : ClauseQuery) (form : ClauseForm) : List (String × Section) :=
  (query.items form).map fun item => (item.column.spelled query.table, form.sec)

def uses (query : ClauseQuery) : List (String × Section) :=
  query.usesIn .select ++ ClauseForm.later.flatMap query.usesIn

end QueryFacts.ClauseQuery

namespace QueryFacts.Proofs.ClauseColumns
open Text Lexeme NestingRun PlainText SelectList ColumnListStatement Selections FromClauses Clauses Spots
open TableSpots MentionSpots Unnested
  BareFacts MeantColumns ClauseQueries

section Clauses

variable {scope : AliasDeclaration.Scope} {context : Context} {before after : List Lexeme}
    {last : Lexeme} {table : String}
  {form : ClauseForm}

theorem keyword_facts (form : ClauseForm) : Keyword.isInsignificant form.keyword.normalized = false ∧
    Keyword.precedesTables form.keyword.normalized = false ∧ Fresh form.keyword := by
  cases form <;> exact ⟨by decide, by decide, fresh_keyword (by decide)⟩

theorem openedBy (form : ClauseForm) : form.sec.OpenedBy form.keyword.normalized := by
  cases form <;> exact ⟨by decide, by decide, by decide⟩

theorem separator_facts (form : ClauseForm) : Fresh form.separator ∧ form.separator.isDot = false ∧
    form.separator.isPunctuation "(" = false ∧ form.separator.isName = false ∧ form.separator.isWildcard = false := by
  have and : Fresh (ofKeyword "AND" true) := fresh_keyword (by decide)
  cases form with
  | filter | having => exact ⟨and, rfl, rfl, rfl, rfl⟩
  | select | groupBy | orderBy => exact ⟨fresh_comma, rfl, by decide, rfl, rfl⟩

theorem staying_list {items : List ClauseItem} : ∀ lexeme ∈ clauseLexemes table form [] items, lexeme.Staying := by
  intro lexeme member
  rcases mem_clauseLexemes member with none | ⟨name, apart, rfl⟩ | mark
  · cases none
  · exact ⟨rfl, nofun⟩
  · exact ⟨(mark_facts lexeme mark).1, (mark_facts lexeme mark).2.2.2⟩

/-- A column is mentioned, whatever is said of it. -/
theorem names_item {item : ClauseItem} (clause : context.clause = some form.keyword.normalized)
    (opened : context.opened = [])
    (fresh : Fresh last) (noDot : last.isDot = false) (halts : Halts after) (column : IsColumnName item.column.name) :
    Names scope context (last :: before) (itemLexemes table item) after
      [Column.Mention.ofName scope.names (item.column.spelled table) form.sec] [] := by
  obtain ⟨⟨qualified, name⟩, demand⟩ := item
  have frames : ∀ frame ∈ context.opened.head?, frame.kind ≠ .withColumns ∧ frame.kind ≠ .createTableColumns := by
    rw [opened]
    nofun
  have more : Halts (demandLexemes demand ++ after) := by
    cases demand with
    | nothing => exact halts
    | equalsOne | exceedsOne | descending => exact ⟨rfl, rfl⟩
  have named := @names_dotted scope context before _ last _ form.sec (openedBy form) clause frames fresh noDot more true
  have rest : Names scope (context.after (columnLexemes table ⟨qualified, name⟩))
      ((columnLexemes table ⟨qualified, name⟩).reverse ++ last :: before) (demandLexemes demand) after [] [] := by
    refine .nameless fun lexeme member => ?_
    have nameless : ∀ lexeme ∈ marks, lexeme.isName = false ∧ lexeme.isWildcard = false := by decide
    exact nameless lexeme (mem_demandLexemes member)
  cases qualified with
  | false => exact (named name [] column.column).append rest
  | true => exact (named table [name] column.column).append rest

theorem names_list {first : ClauseItem} {more : List ClauseItem}
    (clause : context.clause = some form.keyword.normalized)
    (opened : context.opened = []) (fresh : Fresh last) (noDot : last.isDot = false) (halts : Halts after)
    (columns : ∀ item ∈ first :: more, IsColumnName item.column.name) :
    Names scope context (last :: before) (clauseLexemes table form [] (first :: more)) after
      ((first :: more).map fun item => Column.Mention.ofName scope.names (item.column.spelled table) form.sec) [] := by
  induction more generalizing context before last first with
  | nil =>
    have here := @names_item scope context before after last table form first clause opened fresh noDot halts
      (columns first List.mem_cons_self)
    simpa [clauseLexemes] using here
  | cons next more ih =>
    obtain ⟨fresh', noDot', noParen, noName, noWildcard⟩ := separator_facts form
    have resumes : context.Resumes ((context.after (itemLexemes table first)).step form.separator) := by
      have staying : ∀ lexeme ∈ clauseLexemes table form [] [first], lexeme.Staying := staying_list
      have item : context.Resumes (context.after (itemLexemes table first)) :=
        resumes_after fun lexeme member => staying lexeme (by simpa [clauseLexemes] using member)
      have mark := mark_facts _ (separator_mem_marks form)
      exact item.trans (resumes_step ⟨mark.1, mark.2.2.2⟩)
    have here : Names scope context (last :: before) (itemLexemes table first)
        (form.separator :: clauseLexemes table form [] (next :: more) ++ after) _ [] :=
      names_item clause opened fresh noDot ⟨noDot', noParen⟩ (columns first List.mem_cons_self)
    exact here.append
      (.skip ⟨noName, noWildcard⟩ (ih (resumes.clause.trans clause) (resumes.opened.trans opened) fresh' noDot'
      fun item member => columns item (List.mem_cons_of_mem _ member)))

end Clauses

section Statement

variable {query : ClauseQuery} {tables : List String} {context : Context}
    {before after : List Lexeme} {form : ClauseForm}

theorem opened_clause (query : ClauseQuery) (form : ClauseForm) (context : Context) :
    (context.after (query.clause form)).opened = context.opened :=
  opened_after fun lexeme member => (clause_facts query form lexeme member).1

theorem halts_clauses (query : ClauseQuery) (forms : List ClauseForm) : Halts (forms.flatMap query.clause ++ []) := by
  induction forms with
  | nil => exact ⟨rfl, rfl⟩
  | cons form forms ih =>
    rw [List.flatMap_cons]
    unfold ClauseQuery.clause
    cases query.items form with
    | nil => exact ih
    | cons first more => exact ⟨rfl, rfl⟩

/-- In a clause every column is mentioned. -/
theorem names_clause (known : query.Known) (opened : context.opened = []) (halts : Halts after) :
    Names ⟨{}, []⟩ context before (query.clause form) after ((query.usesIn form).map mentionOf) [] := by
  have columns := known.columns form
  unfold ClauseQuery.clause ClauseQuery.usesIn
  cases items : query.items form with
  | nil => exact .nil
  | cons first more =>
    rw [items] at columns
    obtain ⟨significant, -, fresh⟩ := keyword_facts form
    obtain ⟨clause, -, same⟩ := step_significant context form.keyword rfl significant
    have list :
        Names ⟨{}, []⟩ (context.step form.keyword)
          (form.keyword :: before) (clauseLexemes query.table form [] (first :: more))
        after _ [] := names_list clause (same.trans opened) fresh rfl halts columns
    have mentions :
        (first :: more).map (fun item => Column.Mention.ofName [] (item.column.spelled query.table) form.sec) =
        ((first :: more).map fun item => (item.column.spelled query.table, form.sec)).map mentionOf := by
      rw [List.map_map]
      exact List.map_congr_left fun item _ => ofName_bare _ _
    rw [mentions] at list
    exact .skip ⟨rfl, rfl⟩ list

/-- No clause has tables in it. -/
theorem finds_clause (opened : context.opened = []) : Finds tables context before (query.clause form) after [] [] := by
  unfold ClauseQuery.clause
  cases query.items form with
  | nil => exact ⟨rfl, rfl⟩
  | cons first more =>
    obtain ⟨significant, quiet, -⟩ := keyword_facts form
    obtain ⟨clause, -, same⟩ := step_significant context form.keyword rfl significant
    have avoids : (context.step form.keyword).Avoids Keyword.precedesTables := by
      refine ⟨?_, ?_⟩
      · rw [clause]
        exact quiet
      · rw [same, opened]
        exact List.forall_mem_nil _
    have list :
        Finds tables (context.step form.keyword)
          (form.keyword :: before) (clauseLexemes query.table form [] (first :: more))
        after [] [] := .avoiding avoids fun lexeme member => avoids_of_staying (staying_list lexeme member)
    exact .skip (silent_of_other rfl) list

theorem names_clauses (known : query.Known) (opened : context.opened = []) (forms : List ClauseForm) :
    Names ⟨{}, []⟩ context before (forms.flatMap query.clause) [] ((forms.flatMap query.usesIn).map mentionOf) [] := by
  induction forms generalizing context before with
  | nil => exact .nil
  | cons form forms ih =>
    rw [List.flatMap_cons, List.flatMap_cons, List.map_append]
    exact (names_clause known opened (halts_clauses query forms)).append
      (ih ((opened_clause query form context).trans opened))

theorem finds_clauses (opened : context.opened = []) (forms : List ClauseForm) :
    Finds tables context before (forms.flatMap query.clause) [] [] [] := by
  induction forms generalizing context before with
  | nil => exact ⟨rfl, rfl⟩
  | cons form forms ih =>
    rw [List.flatMap_cons]
    exact (finds_clause opened).append (ih ((opened_clause query form context).trans opened))

theorem opened_fromTable (table : String) (opened : context.opened = []) :
    (context.after (fromTable table)).opened = [] := by
  refine (opened_after fun lexeme member => ?_).trans opened
  rcases List.mem_cons.mp member with rfl | last
  · rfl
  · exact List.mem_singleton.mp last ▸ rfl

section FromName

variable {here : Lexeme} (named : here.isName = true)
include named

/-- Nothing is mentioned with a table. -/
theorem names_from {scope : AliasDeclaration.Scope} (opened : context.opened = []) :
    Names scope context before [ofKeyword "FROM" true, here] after [] [] := by
  have avoids :
      (context.step (ofKeyword "FROM" true)).Avoids fun word => Keyword.precedesColumns word || word == "INTO" := by
    rw [step_from, opened]
    exact ⟨show (Keyword.precedesColumns "FROM" || "FROM" == "INTO") = false by decide, List.forall_mem_nil _⟩
  exact .skip ⟨rfl, rfl⟩ (names_avoiding avoids fun lexeme member =>
    List.mem_singleton.mp member ▸ avoids_unkeyed (unkeyed_of_name named))

theorem finds_from (undotted : ∀ last ∈ before.head?, last.isDot = false) (unlisted : "FROM" ∉ tables)
    (ends : after.head?.any isDot = false) :
    Finds tables context before [ofKeyword "FROM" true, here] after [here.value] [] := by
  let from' := ofKeyword "FROM" true
  have words : from'.normalized = "FROM" ∧ from'.reads "AS" = false ∧ from'.reads "WITH" = false := by decide
  have lists : (context.step from').Lists "FROM" := by
    rw [step_from]
    exact ⟨rfl, rfl, isTableWord_reserved (by decide) (by decide)⟩
  have introduces : from'.Introduces "FROM" := ⟨rfl, words.2, rfl, .inl words.1⟩
  have last : nameBefore (from' :: before) ∉ tables := by rwa [nameBefore_undotted undotted]
  exact .skip (silent_of_other rfl) (.single (table?_start lists named introduces ends) (alias?_start introduces last))

end FromName

theorem names_fromTable {scope : AliasDeclaration.Scope} (opened : context.opened = []) (table : String) :
    Names scope context before (fromTable table) after [] [] := names_from rfl opened

theorem finds_fromTable (undotted : ∀ last ∈ before.head?, last.isDot = false) (unlisted : "FROM" ∉ tables)
    (ends : after.head?.any isDot = false) (table : String) :
    Finds tables context before (fromTable table) after [table] [] :=
  finds_from rfl undotted unlisted ends

/-- No name is spelled like a keyword. -/
theorem not_mem_of_reserved {word : String} (reserved : Keyword.isReserved (upper word) = true) {names : List String}
    (unquoted : ∀ name ∈ names, IsUnquoted name) : word ∉ names := fun member =>
  absurd ((unquoted word member).free.symm.trans reserved) Bool.false_ne_true

theorem names_query (known : query.Known) (opened : context.opened = []) :
    Names ⟨{}, []⟩ context [] query.lexemes [] (query.uses.map mentionOf) [] := by
  let selected := context.after (query.clause .select)
  have level : selected.opened = [] := (opened_clause query .select context).trans opened
  rw [ClauseQuery.uses, List.map_append, ClauseQuery.lexemes, List.append_assoc]
  exact (names_clause known opened ⟨rfl, rfl⟩).append
    ((names_fromTable level query.table).append
      (names_clauses known (opened_fromTable query.table level) ClauseForm.later))

theorem finds_query (known : query.Known) (opened : context.opened = []) :
    Finds [query.table] context [] query.lexemes [] [query.table] [] := by
  let selected := context.after (query.clause .select)
  have level : selected.opened = [] := (opened_clause query .select context).trans opened
  have undotted : ∀ last ∈ ((query.clause .select).reverse ++ []).head?, last.isDot = false := by
    intro last found
    rw [List.append_nil, List.head?_reverse] at found
    have part : TextParts.Part false (query.clause .select) := part_clause known .select
    exact beq_eq_false_iff_ne.mpr (part.ends last found).noDot
  have unlisted : "FROM" ∉ [query.table] :=
    not_mem_of_reserved (by decide) (List.forall_mem_singleton.mpr known.table)
  have table : Finds [query.table] selected ((query.clause .select).reverse ++ []) (fromTable query.table)
      (ClauseForm.later.flatMap query.clause ++ []) [query.table] [] :=
    finds_fromTable undotted unlisted (halts_clauses query ClauseForm.later).1 query.table
  rw [ClauseQuery.lexemes, List.append_assoc]
  exact (finds_clause opened).append
    (table.append (finds_clauses (opened_fromTable query.table level) ClauseForm.later))

end Statement

section Facts

variable {query : ClauseQuery} {limits : Limits}

theorem columns_form (query : ClauseQuery) (form : ClauseForm) :
    (query.usesIn form).map (·.1) = query.columns form.sec := by
  rw [ClauseQuery.usesIn, List.map_map]
  cases form with
  | select | filter | groupBy | having | orderBy =>
    simp [ClauseQuery.items, ClauseQuery.columns, ClauseForm.sec, Function.comp_def]

theorem columns_uses (query : ClauseQuery) :
    query.uses.map (·.1) = [.select, .filter, .groupBy, .having, .orderBy].flatMap query.columns := by
  rw [ClauseQuery.uses, List.map_append, List.map_flatMap, columns_form]
  exact congrArg _ (List.flatMap_congr fun form _ => columns_form query form)

theorem namesIn_uses (query : ClauseQuery) : SectionMap.namesIn query.uses = query.columns := by
  funext sec
  have form (form : ClauseForm) : SectionMap.namesIn (query.usesIn form) sec = if form.sec = sec then
      query.columns sec else [] := by
    have uses : query.usesIn form = (query.columns form.sec).map (·, form.sec) := by
      rw [← columns_form, List.map_map]
      simp [ClauseQuery.usesIn]
    rw [uses, SectionMap.namesIn_map]
    split
    next same => rw [same]
    next => rfl
  simp only [ClauseQuery.uses, ClauseForm.later, List.flatMap_cons, List.flatMap_nil, SectionMap.namesIn_append, form]
  cases sec <;> simp [ClauseForm.sec, ClauseQuery.columns, SectionMap.namesIn]

/-- Each clause has its columns, the statement has all of them, and nothing is an alias. -/
theorem clause_columns (known : query.Known) (few : query.lexemes.length ≤ limits.maxTokens) :
    ∃ facts, (Query.ofText query.text limits).facts = .ok facts ∧ facts.tables = [query.table] ∧
      facts.columns = distinct ([.select, .filter, .groupBy, .having, .orderBy].flatMap query.columns) ∧
      facts.columnsBySection = SectionMap.ofNames query.columns ∧
      facts.aliasNames = [] ∧ facts.aliases = {} ∧ facts.aliasesBySection = [] := by
  have flat (lexeme : Lexeme) (member : lexeme ∈ query.lexemes) := (lexeme_facts query lexeme member).1
  obtain ⟨sequence, reading⟩ :=
    exists_reading (readable_query known) (merge_query query) (shallow_level flat 0) (Nat.zero_le _) few
  have annotated := reading.annotated
  obtain ⟨second, rest, begins⟩ : ∃ second rest, query.lexemes = ofKeyword "SELECT" true :: second :: rest :=
    ⟨_, _, rfl⟩
  have kind : StatementKind.ofTokens sequence = .ok .select := by
    refine reading.kind begins (show "SELECT" ≠ "(" by decide) ?_
    rw [show (ofKeyword "SELECT" true).normalized = "SELECT" from normalForm_select]
    rfl
  have bodiless : Subquery.bodies sequence = {} := bodies_unnamed reading fun spot within closing => by
    have side := flat spot.here (within.whole ▸ by simp)
    rw [side?_eq_closing.mpr closing] at side
    cases side
  have names := names_query known (show (Context.start query.lexemes).opened = [] from rfl)
  have finds := finds_query known (show (Context.start query.lexemes).opened = [] from rfl)
  have tables : Table.names sequence [] = [query.table] := by
    rw [names_eq annotated, finds.names]
    rfl
  have unaliased : Table.aliases sequence (Table.names sequence []) = {} := by
    rw [tables, aliases_eq annotated, finds.aliases]
    rfl
  have undeclared : Facts.declarations sequence {} = [] := List.map_eq_nil_iff.mp (labels_eq annotated bodiless names)
  have mentioned := MentionSpots.mentions_eq annotated bodiless names
  rw [undeclared] at mentioned
  obtain ⟨facts, read, lists⟩ :=
    exists_facts_undeclared reading kind nofun (fun lexeme member => (lexeme_facts query lexeme member).2)
    bodiless unaliased undeclared mentioned
  refine ⟨facts, read, lists.tables.trans tables, ?_, ?_, lists.aliasNames, lists.aliases, lists.aliasesBySection⟩
  · rw [lists.columns, columns_uses]
  · rw [lists.columnsBySection, namesIn_uses]

end Facts

/-- Columns that come twice, with and without the table, in every clause. -/
theorem clause_columns_all : ∃ facts, (Query.ofText
    "SELECT a, t.b, a FROM t WHERE c = 1 AND t.d = 1 GROUP BY a, t.a HAVING e > 1 ORDER BY t.b DESC, c" {}).facts =
      .ok facts ∧
      facts.tables = ["t"] ∧ facts.columns = ["a", "t.b", "c", "t.d", "t.a", "e"] ∧
      facts.columnsBySection =
        [(.select, ["a", "t.b"]), (.filter, ["c", "t.d"]), (.orderBy, ["t.b", "c"]), (.groupBy, ["a", "t.a"]),
        (.having, ["e"])] := by
  let query : ClauseQuery := {
    table := "t", first := { name := "a" }, more := [⟨true, "b"⟩, ⟨false, "a"⟩]
    conditions := [⟨false, "c"⟩, ⟨true, "d"⟩], groups := [⟨false, "a"⟩, ⟨true, "a"⟩]
    groupConditions := [⟨false, "e"⟩], orders := [(⟨true, "b"⟩, true), (⟨false, "c"⟩, false)] }
  have text : query.text =
      "SELECT a, t.b, a FROM t WHERE c = 1 AND t.d = 1 GROUP BY a, t.a HAVING e > 1 ORDER BY t.b DESC, c" := by decide
  have known : query.Known := ⟨by decide, fun form => by cases form <;> decide⟩
  obtain ⟨facts, read, tables, columns, bySection, -⟩ := @clause_columns query {} known (by decide)
  rw [text] at read
  exact ⟨facts, read, tables, columns.trans (by decide), bySection.trans (by decide)⟩

end QueryFacts.Proofs.ClauseColumns

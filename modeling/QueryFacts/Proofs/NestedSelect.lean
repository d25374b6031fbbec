import QueryFacts.Proofs.RecursionLimit
import QueryFacts.Proofs.Selections.Statement

/-! A column that is selected through sub-queries nested in each other. Each of them is a body
one level deeper, so a limit on this depth is met exactly when there are more of them. -/

namespace QueryFacts
open Text

/-- `SELECT s.a FROM (SELECT r.a FROM ( … (SELECT a FROM t) … ) r) s`, the outermost name first. -/
def nestedSelect (column table : String) : List String → Selection
  | [] => .table { column } [] table
  | name :: inner => .nested { qualifier := name, column } [] (nestedSelect column table inner) name

namespace Proofs.NestedSelect
open Lexeme SelectList Selections MeantColumns RecursionLimit

variable {column table : String} {names : List String}

/-- All names in the statement are names of columns, and those of the sub-queries differ. -/
structure Named (column table : String) (names : List String) : Prop where
  isColumn : IsColumnName column
  isTable : IsColumnName table
  areNames : ∀ name ∈ names, IsColumnName name
  distinct : names.Nodup

theorem Named.suffix {inner : List String} (named : Named column table names) (suffix : inner <:+ names) :
    Named column table inner where
  isColumn := named.isColumn
  isTable := named.isTable
  areNames other member := named.areNames other (suffix.subset member)
  distinct := named.distinct.sublist suffix.sublist

section Statement

theorem known_nestedSelect (named : Named column table names) : (nestedSelect column table names).Known := by
  induction names with
  | nil =>
    refine ⟨fun item member => ?_, named.isTable⟩
    obtain rfl := List.mem_singleton.mp member
    exact ⟨nofun, named.isColumn, nofun⟩
  | cons name inner ih =>
    have isName := named.areNames name List.mem_cons_self
    refine ⟨fun item member => ?_, ih (named.suffix (List.suffix_cons _ _)), isName⟩
    obtain rfl := List.mem_singleton.mp member
    exact ⟨fun other same => by cases same; exact isName, named.isColumn, nofun⟩

theorem depth_nestedSelect : (nestedSelect column table names).depth = names.length := by
  induction names with
  | nil => rfl
  | cons name inner ih => exact congrArg (· + 1) ih

theorem length_nestedSelect (apart : Bool) :
    (lexemes apart (nestedSelect column table names)).length = 8 * names.length + 4 := by
  induction names generalizing apart with
  | nil => rfl
  | cons name inner ih =>
    simp only [nestedSelect, lexemes, listLexemes, projectionLexemes, columnLexemes, labelLexemes, List.length_cons,
      List.length_append, List.length_nil, List.flatMap_nil, ih]
    omega

theorem unlabelled_nestedSelect : ∀ item ∈ (nestedSelect column table names).items, item.label = none := by
  induction names with
  | nil =>
    intro item member
    obtain rfl := List.mem_singleton.mp member
    rfl
  | cons name inner ih =>
    intro item member
    rcases List.mem_cons.mp member with rfl | later
    · rfl
    · exact ih item later

theorem tables_nestedSelect : (nestedSelect column table names).tables = [table] := by
  induction names with
  | nil => rfl
  | cons name inner ih => exact ih

/-- Every level mentions the column of the next one. -/
theorem mentions_nestedSelect : (nestedSelect column table names).mentions [] =
    (names.map (fun name => (qualify name column, Section.select)) ++ [(column, Section.select)]).map mentionOf := by
  induction names with
  | nil => rfl
  | cons name inner ih =>
    rw [nestedSelect, Selection.mentions, ih]
    rfl

theorem keys_nestedSelect : (nestedSelect column table names).bodies.map (·.1) = names.reverse := by
  induction names with
  | nil => rfl
  | cons name inner ih => simp [nestedSelect, Selection.bodies, ih]

/-- The text behind the name of a nested statement. -/
def bodyOf (column table : String) (names : List String) (name : String) : Option String :=
  ((nestedSelect column table names).bodies.map fun (name, inner) => (name, inner.text)).lookup name

theorem bodyOf_outermost {name : String} (fresh : name ∉ names) :
    bodyOf column table (name :: names) name = some (nestedSelect column table names).text := by
  have unknown : bodyOf column table names name = none := by
    refine List.lookup_eq_none_iff.mpr fun entry inside => ?_
    obtain ⟨body, listed, rfl⟩ := List.mem_map.mp inside
    refine bne_iff_ne.mpr fun same => fresh ?_
    have keys : (nestedSelect column table names).bodies.map (·.1) = names.reverse := keys_nestedSelect
    rw [← List.mem_reverse, ← keys]
    exact List.mem_map.mpr ⟨body, listed, same.symm⟩
  rw [bodyOf] at unknown
  rw [bodyOf, nestedSelect, Selection.bodies, List.map_append, List.lookup_append, unknown]
  simp

/-- Each name is that of a statement with fewer levels. -/
theorem exists_bodyOf (column table : String) {names : List String} (distinct : names.Nodup)
    {name : String} (member : name ∈ names) :
    ∃ inner, inner.length < names.length ∧ inner <:+ names ∧
      bodyOf column table names name = some (nestedSelect column table inner).text := by
  induction names with
  | nil => cases member
  | cons first rest ih =>
    obtain ⟨fresh, distinctRest⟩ := List.nodup_cons.mp distinct
    rcases List.mem_cons.mp member with rfl | later
    · exact ⟨rest, Nat.lt_succ_self _, List.suffix_cons _ _, bodyOf_outermost fresh⟩
    · obtain ⟨inner, fewer, suffix, found⟩ := ih distinctRest later
      refine ⟨inner, Nat.lt_succ_of_lt fewer, suffix.trans (List.suffix_cons _ _), ?_⟩
      rw [bodyOf] at found
      rw [bodyOf, nestedSelect, Selection.bodies, List.map_append, List.lookup_append, found]
      rfl

end Statement

section Analysis

variable {limits : Limits} {analyze : String → Except Error Facts} (named : Named column table names)
  (deep : names.length ≤ limits.maxNestingDepth) (few : 8 * names.length + 4 ≤ limits.maxTokens)

include named deep few in
theorem exists_read : ∃ sequence, Standalone limits (nestedSelect column table names) sequence ∧
    Facts.declarations sequence {} = [] ∧ Column.mentions sequence [] [] =
      (names.map (fun name => (qualify name column, Section.select)) ++ [(column, Section.select)]).map mentionOf ∧
    Table.aliases sequence (Table.names sequence (WithClause.names {})) = {} ∧
    ∀ name, bodyText {} (Subquery.bodies sequence) name = bodyOf column table names name := by
  obtain ⟨sequence, standalone⟩ := exists_standalone (known_nestedSelect named) (depth_nestedSelect ▸ deep)
    ((length_nestedSelect true).trans_le few)
  have unlabelled : Places.declarations (signs none none false true (nestedSelect column table names)) = [] :=
    Standalone.undeclared unlabelled_nestedSelect
  refine ⟨sequence, standalone, ?_, ?_, ?_, fun name => ?_⟩
  · rw [Places.declarations_eq standalone.signed rfl (by rw [unlabelled]; nofun), unlabelled]
  · have mentions := standalone.mentions (known_nestedSelect named) []
    rwa [unlabelled, mentions_nestedSelect] at mentions
  · refine standalone.tableAliases fun other inside => ?_
    rw [standalone.tables, tables_nestedSelect] at inside
    obtain rfl := List.mem_singleton.mp (List.mem_filter.mp inside).1
    exact named.isTable
  · rw [bodyText, standalone.subqueries, NameMap.find?_ofFirstPairs]
    exact Option.or_none

/-- The facts of a statement with one column, which it gives no other name. -/
structure SelectsOnly (facts : Facts) (column : String) : Prop where
  columns : facts.columns = [column]
  aliases : facts.aliases = {}

theorem meaning_through {bodies : Bodies} {name : String} {facts : Facts} (isColumn : IsColumnName column)
    (known : bodies.contains name = true) (body : bodies.facts? name = .ok (some facts))
    (only : SelectsOnly facts column) :
    Column.meaning {} bodies (qualify name column) = .ok ([column], qualify name column) := by
  have bare := bare_of_column isColumn
  have unqualified : splitQualified? column = none := by simp [splitQualified?, splitAtLastDot_eq_none bare]
  have last : lastPart column = column := by rw [lastPart, unqualified]; rfl
  have looked := lookUp_column body (value_of_name isColumn).2.2.2.2 only.aliases only.columns last
  have ends : bodies.graph.leaves [column] [qualify name column] = .ok [column] := by
    refine Unfolding.leaves_of_closed ?_ _
    simp [Bodies.graph, unqualified]
  rw [meaning_qualified bare rfl known, Bodies.resolve, looked]
  simp only [ends]
  rfl

include named deep few

/-- With a body analyzed for each name, only the innermost column is left. -/
theorem facts_analyzed (analyzed : ∀ inner, inner <:+ names → inner.length < names.length →
      ∃ facts, analyze (nestedSelect column table inner).text = .ok facts ∧ SelectsOnly facts column) :
    ∃ facts, statementFacts limits (nestedSelect column table names).text analyze = .ok facts ∧
        SelectsOnly facts column := by
  obtain ⟨sequence, standalone, undeclared, mentioned, noAliases, body⟩ := exists_read named deep few
  have means :
      ∀ name ∈ (names.map (fun name => (qualify name column, Section.select)) ++ [(column, Section.select)]).map (·.1),
      ∃ written, Column.meaning (Table.aliases sequence (Table.names sequence (WithClause.names {})))
        (Bodies.ofStatement sequence {} (Subquery.bodies sequence) analyze) name = .ok ([column], written) := by
    intro spelled member
    rw [noAliases]
    simp only [List.map_append, List.map_map, List.mem_append, List.mem_map, List.map_cons, List.map_nil,
      List.mem_singleton] at member
    rcases member with ⟨name, inside, rfl⟩ | rfl
    · obtain ⟨inner, fewer, suffix, found⟩ := exists_bodyOf column table named.distinct inside
      obtain ⟨facts, known, only⟩ := analyzed inner suffix fewer
      have text := (body name).trans found
      exact ⟨_, meaning_through named.isColumn (contains_ofStatement text) (facts?_ofStatement text known) only⟩
    · exact ⟨_, meaning_bare (bare_of_column named.isColumn)⟩
  obtain ⟨facts, known, columns, aliases, -⟩ := exists_facts_bare standalone.withClause undeclared mentioned means
  refine ⟨facts, ?_, ⟨columns.trans (distinct_eq_singleton.mpr ⟨by simp, ?_⟩), aliases⟩⟩
  · simp only [statementFacts, bind, Except.bind, standalone.tokens, standalone.kind, known]
  · intro other member
    obtain ⟨spelled, -, here⟩ := List.mem_flatMap.mp member
    exact List.mem_singleton.mp here

omit named deep few in
/-- With the outermost body too deep, the statement is too. -/
theorem facts_exceeded {name : String} {inner : List String} (named : Named column table (name :: inner))
    (deep : (name :: inner).length ≤ limits.maxNestingDepth) (few : 8 * (name :: inner).length + 4 ≤ limits.maxTokens)
    {depth limit : Nat}
    (refused : analyze (nestedSelect column table inner).text = .error (.recursionLimit depth limit)) :
    statementFacts limits (nestedSelect column table (name :: inner)).text analyze =
        .error (.recursionLimit depth limit) := by
  obtain ⟨sequence, standalone, undeclared, mentioned, noAliases, body⟩ := exists_read named deep few
  have text := (body name).trans (bodyOf_outermost (List.nodup_cons.mp named.distinct).1)
  have fails : Column.meaning (Table.aliases sequence (Table.names sequence (WithClause.names {})))
      (Bodies.ofStatement sequence {} (Subquery.bodies sequence) analyze) (qualify name column) =
        .error (.recursionLimit depth limit) := by
    rw [noAliases, meaning_qualified (bare_of_column named.isColumn) rfl (contains_ofStatement text), Bodies.resolve,
      Bodies.lookUp, facts?_exceeded text refused]
    rfl
  have known := ofTokens_error standalone.withClause undeclared mentioned fails
  simp only [statementFacts, bind, Except.bind, standalone.tokens, standalone.kind, known]

end Analysis

section Levels

variable {limits : Limits}

/-- As many more bodies may be analyzed within each other as there are levels. -/
theorem factsWithin_nested (levels depth : Nat) {names : List String} (named : Named column table names)
    (deep : names.length ≤ limits.maxNestingDepth) (few : 8 * names.length + 4 ≤ limits.maxTokens) :
    (names.length ≤ levels → ∃ facts,
      factsWithin limits levels depth (nestedSelect column table names).text = .ok facts ∧ SelectsOnly facts column) ∧
    (levels < names.length → factsWithin limits levels depth (nestedSelect column table names).text =
      .error (.recursionLimit (depth + levels + 1) limits.maxRecursionDepth)) := by
  induction levels generalizing depth names with
  | zero =>
    constructor
    · intro short
      exact facts_analyzed named deep few fun inner suffix fewer => absurd fewer (by omega)
    · intro long
      cases names with
      | nil => cases long
      | cons name inner => exact facts_exceeded named deep few rfl
  | succ levels ih =>
    have within {inner : List String} (suffix : inner <:+ names) := ih (depth + 1) (named.suffix suffix)
      (suffix.length_le.trans deep) (by have := suffix.length_le; omega)
    constructor
    · intro short
      refine facts_analyzed named deep few fun inner suffix fewer => (within suffix).1 (by omega)
    · intro long
      cases names with
      | nil => cases long
      | cons name inner =>
        have refused := (within (List.suffix_cons name inner)).2 (Nat.lt_of_succ_lt_succ long)
        rw [Nat.add_right_comm depth 1 levels] at refused
        exact facts_exceeded named deep few refused

/-- The column of a statement through sub-queries nested in each other is found exactly when
there are no more of them than the limit says. Otherwise every property of the query that
needs its facts is the error of the first level beyond it. -/
theorem nestedSelect_within_limit {names : List String} (isColumn : IsColumnName column) (isTable : IsColumnName table)
    (areNames : ∀ name ∈ names, IsColumnName name) (distinct : names.Nodup)
    (deep : names.length ≤ limits.maxNestingDepth) (few : 8 * names.length + 4 ≤ limits.maxTokens) :
    let query := Query.ofText (nestedSelect column table names).text limits
    let exceeded := Error.recursionLimit (limits.maxRecursionDepth + 1) limits.maxRecursionDepth
    (names.length ≤ limits.maxRecursionDepth → ∃ facts, query.facts = .ok facts ∧ facts.columns = [column]) ∧
    (limits.maxRecursionDepth < names.length → query.facts = .error exceeded ∧
        query.assignments = .error exceeded) := by
  intro query exceeded
  have named : Named column table names := ⟨isColumn, isTable, areNames, distinct⟩
  obtain ⟨succeeds, fails⟩ := factsWithin_nested limits.maxRecursionDepth 0 named deep few
  have facts : query.facts = factsWithin limits limits.maxRecursionDepth 0 (nestedSelect column table names).text :=
    facts_ofText _ limits
  rw [← facts] at succeeds fails
  refine ⟨fun short => ?_, fun long => ?_⟩
  · obtain ⟨found, known, only⟩ := succeeds short
    exact ⟨found, known, only.columns⟩
  · have refused : query.facts = .error exceeded := by
      rw [fails long, Nat.zero_add]
    obtain ⟨sequence, standalone, -⟩ := exists_read named deep few
    have kind : query.kind = .ok .select := by
      show queryTokens limits _ >>= StatementKind.ofTokens = _
      simp only [bind, Except.bind, standalone.tokens, standalone.kind]
    have values : query.values = .ok [] := by
      simp only [Query.values, bind, Except.bind, kind]
      rfl
    refine ⟨refused, ?_⟩
    simp only [Query.assignments, bind, Except.bind, values, refused]

theorem nestedSelect_two_levels :
    (∃ facts, (Query.ofText "SELECT s.a FROM (SELECT r.a FROM (SELECT a FROM t) r) s" {}).facts = .ok facts ∧
      facts.columns = ["a"]) ∧
    (Query.ofText "SELECT s.a FROM (SELECT r.a FROM (SELECT a FROM t) r) s" { maxRecursionDepth := 1 }).facts =
      .error (.recursionLimit 2 1) ∧
    (Query.ofText "SELECT s.a FROM (SELECT r.a FROM (SELECT a FROM t) r) s" { maxRecursionDepth := 1 }).assignments =
      .error (.recursionLimit 2 1) := by
  have isColumn : IsColumnName "a" := by decide
  have isTable : IsColumnName "t" := by decide
  have areNames : ∀ name ∈ ["s", "r"], IsColumnName name := by decide
  have distinct : ["s", "r"].Nodup := by decide
  have text :
      (nestedSelect "a" "t" ["s", "r"]).text = "SELECT s.a FROM (SELECT r.a FROM (SELECT a FROM t) r) s" := by decide
  have found : _ → ∃ facts, (Query.ofText (nestedSelect "a" "t" ["s", "r"]).text {}).facts = .ok facts ∧ _ :=
    (nestedSelect_within_limit isColumn isTable areNames distinct (by decide) (by decide)).1
  have refused : _ → (Query.ofText (nestedSelect "a" "t" ["s", "r"]).text { maxRecursionDepth := 1 }).facts = _ ∧ _ :=
    (nestedSelect_within_limit isColumn isTable areNames distinct (by decide) (by decide)).2
  rw [text] at found refused
  exact ⟨found (by decide), refused (by decide)⟩

end Levels

end Proofs.NestedSelect

end QueryFacts

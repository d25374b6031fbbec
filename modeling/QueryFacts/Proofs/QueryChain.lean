import QueryFacts.Proofs.CommonTables
import QueryFacts.Proofs.RecursionLimit
import QueryFacts.Proofs.Unfolding

/-! A chain of common table expressions, each of which selects a column from the one before
it. All of them are bodies of one statement, so none of them is deeper than another. -/

namespace QueryFacts
open Text

/-- Selects a column from a common table expression, or from the table if there is none. -/
def link (column table : String) (earlier : Option String) : Selection :=
  .table { qualifier := earlier, column } [] (earlier.getD table)

def links (column table : String) : Option String → List String → List (String × Selection)
  | _, [] => []
  | earlier, name :: rest => (name, link column table earlier) :: links column table (some name) rest

/-- `WITH first AS (SELECT column FROM table), … SELECT last.column FROM last` -/
def queryChain (column table first : String) (more : List String) : WithSelection where
  first := (first, link column table none)
  more := links column table (some first) more
  main := link column table (some (more.getLastD first))

namespace Proofs.QueryChain
open Lexeme SelectList Selections CommonTables MeantColumns Unfolding RecursionLimit

variable {column table first : String} {more names : List String} {earlier : Option String}

section Links

theorem keys_links : (links column table earlier names).map (·.1) = names := by
  induction names generalizing earlier with
  | nil => rfl
  | cons name rest ih => exact congrArg (name :: ·) ih

/-- Each name leads to a selection from the name before it. -/
theorem lookup_links {before rest : List String} {name : String} (distinct : (before ++ name :: rest).Nodup) :
    (links column table earlier (before ++ name :: rest)).lookup name =
      some (link column table (before.getLast?.or earlier)) := by
  induction before generalizing earlier with
  | nil => simp [links]
  | cons other before ih =>
    obtain ⟨fresh, distinctRest⟩ := List.nodup_cons.mp distinct
    have different : (name == other) = false := by
      refine beq_eq_false_iff_ne.mpr fun same => fresh ?_
      exact same ▸ List.mem_append_right _ List.mem_cons_self
    have last : (other :: before).getLast?.or earlier = before.getLast?.or (some other) := by
      rw [List.getLast?_cons, Option.some_or]
      cases before.getLast? <;> rfl
    rw [List.cons_append, links, List.lookup_cons, different, last]
    exact ih distinctRest

theorem parts_chain : (queryChain column table first more).parts =
    (none :: (first :: more).map some).map (link column table) := by
  have general (first : String) (more : List String) :
      (links column table (some first) more).map (·.2) ++ [link column table (some (more.getLastD first))] =
        ((first :: more).map some).map (link column table) := by
    induction more generalizing first with
    | nil => rfl
    | cons next more ih =>
      rw [List.getLastD_cons]
      exact congrArg (link column table (some first) :: ·) (ih next)
  exact congrArg (link column table none :: ·) (general first more)

theorem link_mem {part : Selection} (member : part ∈ (queryChain column table first more).parts) :
    ∃ earlier, (∀ name ∈ earlier, name ∈ first :: more) ∧ part = link column table earlier := by
  rw [parts_chain] at member
  obtain ⟨earlier, inside, rfl⟩ := List.mem_map.mp member
  refine ⟨earlier, fun name same => ?_, rfl⟩
  rcases List.mem_cons.mp inside with rfl | known
  · cases same
  · obtain ⟨other, there, rfl⟩ := List.mem_map.mp known
    cases same
    exact there

theorem known_link (isColumn : IsColumnName column) (isTable : IsColumnName table)
    (isName : ∀ name ∈ earlier, IsColumnName name) : (link column table earlier).Known := by
  refine ⟨fun item member => ?_, ?_⟩
  · obtain rfl := List.mem_singleton.mp member
    exact ⟨isName, isColumn, nofun⟩
  · cases earlier with
    | none => exact isTable
    | some name => exact isName name rfl

theorem unlabelled_link : ∀ item ∈ (link column table earlier).items, item.label = none := by
  intro item member
  obtain rfl := List.mem_singleton.mp member
  rfl

/-- The column as a link has it. -/
def spelledFrom (column : String) (earlier : Option String) : String :=
  ({ qualifier := earlier, column } : Projection).spelled

theorem mentions_link :
    (link column table earlier).mentions [] = [mentionOf (spelledFrom column earlier, .select)] := by
  cases earlier <;> rfl

theorem lastPart_spelledFrom (bare : '.' ∉ column.toList) : lastPart (spelledFrom column earlier) = column := by
  cases earlier with
  | none => rw [spelledFrom, Projection.spelled, lastPart, splitQualified?, splitAtLastDot_eq_none bare]; rfl
  | some name => rw [spelledFrom, Projection.spelled, lastPart, splitQualified?_qualify bare]; rfl

end Links

section Bodies

variable {limits : Limits}

/-- A link by itself has the one column, as it is written. -/
theorem facts_link (isColumn : IsColumnName column) (isTable : IsColumnName table)
    (isName : ∀ name ∈ earlier, IsColumnName name)
    (few : 6 ≤ limits.maxTokens) (analyze : String → Except Error Facts) :
    ∃ facts, statementFacts limits (link column table earlier).text analyze = .ok facts ∧
      facts.columns = [spelledFrom column earlier] ∧ facts.aliases = {} := by
  have known := known_link isColumn isTable isName
  have short : (lexemes true (link column table earlier)).length ≤ 6 := by
    cases earlier <;> exact Nat.le_of_ble_eq_true rfl
  obtain ⟨sequence, standalone⟩ := exists_standalone known (Nat.zero_le _) (short.trans few)
  have unlabelled : Places.declarations (signs none none false true (link column table earlier)) = [] :=
    Standalone.undeclared unlabelled_link
  have undeclared : Facts.declarations sequence {} = [] := by
    rw [Places.declarations_eq standalone.signed rfl (by rw [unlabelled]; nofun), unlabelled]
  have mentioned : Column.mentions sequence [] [] = [(spelledFrom column earlier, Section.select)].map mentionOf := by
    have all := standalone.mentions known []
    rwa [unlabelled, mentions_link] at all
  have noAliases : Table.aliases sequence (Table.names sequence (WithClause.names {})) = {} := by
    refine standalone.tableAliases fun other inside => ?_
    rw [standalone.tables] at inside
    obtain rfl := List.mem_singleton.mp (List.mem_filter.mp inside).1
    exact known.2
  have noBodies (name : String) :
      (Bodies.ofStatement sequence {} (Subquery.bodies sequence) analyze).contains name = false := by
    rw [standalone.subqueries]
    rfl
  have means : ∀ name ∈ [(spelledFrom column earlier, Section.select)].map (·.1), ∃ written,
      Column.meaning (Table.aliases sequence (Table.names sequence (WithClause.names {})))
        (Bodies.ofStatement sequence {} (Subquery.bodies sequence) analyze) name = .ok ([name], written) := by
    intro name member
    obtain rfl := List.mem_singleton.mp member
    rw [noAliases]
    cases earlier with
    | none => exact ⟨_, meaning_bare (bare_of_column isColumn)⟩
    | some name => exact ⟨_, meaning_unknown (bare_of_column isColumn) rfl (noBodies name)⟩
  obtain ⟨facts, found, columns, aliases, -⟩ := exists_facts_bare standalone.withClause undeclared mentioned means
  refine ⟨facts, ?_, columns, aliases⟩
  simp only [statementFacts, bind, Except.bind, standalone.tokens, standalone.kind, found]

end Bodies

section Tracing

/-- Each name of a chain is that of a body, in which the column is the one of the body before it. -/
def Linked (column : String) (bodies : Bodies) (names : List String) : Prop :=
  ∀ before name rest, names = before ++ name :: rest →
    bodies.contains name = true ∧ bodies.lookUp name column = .ok [spelledFrom column before.getLast?]

variable {bodies : Bodies} (bare : '.' ∉ column.toList) (linked : Linked column bodies names)

include bare in
theorem successors_qualified {name : String} (known : bodies.contains name = true) :
    bodies.graph.successors (qualify name column) = some (bodies.lookUp name column) := by
  simp [Bodies.graph, splitQualified?_qualify bare, known]

include bare linked

/-- From a link on, the chain is followed to the column of the table. -/
theorem walk_linked {start opened before rest : List String} (whole : names = before ++ rest)
    (fresh : ∀ name ∈ before, qualify name column ∉ opened) (distinct : before.Nodup) {earlier : Option String}
    (last : before.getLast? = earlier)
    (inside : ∀ name ∈ [spelledFrom column earlier], (bodies.graph.successors name).isSome →
      name ∈ start ++ bodies.graph.inner ()) :
    bodies.graph.walk start [spelledFrom column earlier] opened [] inside = .ok [column] := by
  induction before using List.reverseRecOn generalizing rest opened earlier with
  | nil =>
    obtain rfl : none = earlier := last
    have closed : bodies.graph.successors column = none := by
      simp [Bodies.graph, splitQualified?, splitAtLastDot_eq_none bare]
    exact walk_closed closed
  | append_singleton before name ih =>
    obtain rfl : some name = earlier := (List.getLast?_concat).symm.trans last
    obtain ⟨known, found⟩ := linked before name rest (by simpa using whole)
    have opening : bodies.graph.successors (qualify name column) = some (.ok [spelledFrom column before.getLast?]) := by
      rw [successors_qualified bare known, found]
    have unopened : qualify name column ∉ opened := fresh name (List.mem_append_right _ (List.mem_singleton.mpr rfl))
    obtain ⟨distinctBefore, -, apart⟩ := List.nodup_append.mp distinct
    obtain ⟨within, step⟩ : ∃ within, bodies.graph.walk start [spelledFrom column (some name)] opened [] inside =
        bodies.graph.walk start [spelledFrom column before.getLast?] (qualify name column :: opened) [] within :=
      walk_opens opening unopened
    refine step.trans (ih (by simpa using whole) (fun other member opens => ?_) distinctBefore rfl within)
    rcases List.mem_cons.mp opens with same | old
    · exact apart other member name (List.mem_singleton.mpr rfl) (qualify_left_inj same)
    · exact fresh other (List.mem_append_left _ member) old

theorem resolve_linked (distinct : names.Nodup) {name : String} (member : name ∈ names) :
    bodies.contains name = true ∧ bodies.resolve name column = .ok [column] := by
  obtain ⟨before, rest, whole⟩ := List.append_of_mem member
  obtain ⟨known, found⟩ := linked before name rest whole
  rw [whole] at distinct
  obtain ⟨distinctBefore, -, apart⟩ := List.nodup_append.mp distinct
  refine ⟨known, ?_⟩
  rw [Bodies.resolve, found]
  refine walk_linked bare linked whole (fun other inside opens => ?_) distinctBefore rfl _
  exact apart other inside name List.mem_cons_self (qualify_left_inj (List.mem_singleton.mp opens))

/-- What a link mentions comes from the table. -/
theorem meaning_linked (distinct : names.Nodup) (isName : ∀ name ∈ earlier, name ∈ names) :
    ∃ written, Column.meaning {} bodies (spelledFrom column earlier) = .ok ([column], written) := by
  cases earlier with
  | none => exact ⟨column, meaning_bare bare⟩
  | some name =>
    obtain ⟨known, found⟩ := resolve_linked bare linked distinct (isName name rfl)
    refine ⟨qualify name column, (meaning_qualified bare rfl known).trans ?_⟩
    rw [found]
    rfl

end Tracing

section Statement

variable {limits : Limits}

/-- All names in the statement are names of columns. Those of its common table expressions
differ from each other and from the table. -/
structure Named (column table first : String) (more : List String) : Prop where
  isColumn : IsColumnName column
  isTable : IsColumnName table
  areNames : ∀ name ∈ first :: more, IsColumnName name
  distinct : (first :: more).Nodup
  fresh : table ∉ first :: more

variable (named : Named column table first more)
include named

theorem known_chain : (queryChain column table first more).Known := by
  refine ⟨fun declared member => ?_, fun part member => ?_⟩
  · refine named.areNames _ ?_
    have keys : (links column table none (first :: more)).map (·.1) = first :: more := keys_links
    rw [← keys]
    exact List.mem_map_of_mem member
  · obtain ⟨earlier, known, rfl⟩ := link_mem member
    exact known_link named.isColumn named.isTable fun name same => named.areNames name (known name same)

omit named in
theorem flat_chain : ∀ part ∈ (queryChain column table first more).parts, part.depth = 0 := by
  intro part member
  obtain ⟨earlier, -, rfl⟩ := link_mem member
  rfl

omit named in
theorem length_chain : (withLexemes (queryChain column table first more)).length = 11 * (more.length + 1) + 4 := by
  have link_length (apart : Bool) (earlier : String) : (lexemes apart (link column table (some earlier))).length = 6 :=
    rfl
  have general (name earlier : String) (more : List String) :
      (declarationsLexemes (name, link column table (some earlier)) (links column table (some name) more)).length =
        11 * more.length + 10 := by
    induction more generalizing name earlier with
    | nil => rfl
    | cons next more ih =>
      simp only [links, declarationsLexemes, declarationLexemes, List.length_append, List.length_cons, List.length_nil,
        link_length, ih]
      omega
  have start : (declarationLexemes (first, link column table none)).length = 8 := rfl
  cases more with
  | nil => rfl
  | cons next more =>
    simp only [queryChain, withLexemes, links, declarationsLexemes, List.length_append,
      List.length_cons, link_length, start, general]
    omega

/-- What the statement declares. -/
def chainClause (column table first : String) (more : List String) : WithClause where
  bodies := NameMap.ofFirstPairs ((links column table none (first :: more)).map fun (name, body) => (name, body.text))

theorem names_chain : (chainClause column table first more).names = first :: more := by
  rw [WithClause.names, chainClause, NameMap.keys_ofFirstPairs, List.map_map]
  exact (congrArg QueryFacts.distinct keys_links).trans (distinct_of_nodup named.distinct)

section Sequence

variable {sequence : TokenSequence} (standalone : StandaloneWith limits (queryChain column table first more) sequence)
include standalone

theorem tables_chain : Table.names sequence (chainClause column table first more).names = [table] := by
  have listed : (queryChain column table first more).parts.flatMap Selection.tables = table :: first :: more := by
    rw [parts_chain, List.flatMap_map, List.flatMap_cons, List.flatMap_map]
    exact congrArg (table :: ·) (List.flatMap_singleton' _)
  have others : ∀ name ∈ first :: more, ¬(!(first :: more).contains name) := fun name member => by
    rw [List.contains_iff_mem.mpr member]
    exact Bool.false_ne_true
  rw [standalone.tables, names_chain named, listed]
  refine (filter_addAllNew_of_neg others [table]).trans (List.filter_cons_of_pos ?_)
  simpa using named.fresh

variable {analyze : String → Except Error Facts}
    (analyzed : ∀ earlier : Option String, (∀ name ∈ earlier, name ∈ first :: more) →
  ∃ facts, analyze (link column table earlier).text = .ok facts ∧
    facts.columns = [spelledFrom column earlier] ∧ facts.aliases = {})
include analyzed

theorem linked_chain : Linked column
    (Bodies.ofStatement sequence (chainClause column table first more) (Subquery.bodies sequence) analyze)
        (first :: more) := by
  intro before name rest whole
  have noSubqueries : Subquery.bodies sequence = {} := by
    rw [standalone.subqueries, parts_chain, List.flatMap_map]
    exact congrArg NameMap.ofFirstPairs (List.flatMap_eq_nil_iff.mpr fun _ _ => rfl)
  have text : bodyText (chainClause column table first more) (Subquery.bodies sequence) name =
      some (link column table before.getLast?).text := by
    have found : (links column table none (before ++ name :: rest)).lookup name = _ :=
      lookup_links (whole ▸ named.distinct)
    rw [noSubqueries, bodyText, chainClause, NameMap.find?_ofFirstPairs_map _ Selection.text,
      whole, found, Option.or_none]
    rfl
  obtain ⟨facts, known, columns, aliases⟩ := analyzed before.getLast? fun other last => by
    rw [whole]
    exact List.mem_append_left _ (List.mem_of_getLast? last)
  have bare := bare_of_column named.isColumn
  exact ⟨contains_ofStatement text,
    lookUp_column (facts?_ofStatement text known) (value_of_name named.isColumn).2.2.2.2 aliases
    columns (lastPart_spelledFrom bare)⟩

/-- With the bodies analyzed, every mention is traced to the table. -/
theorem facts_analyzed : ∃ facts, Facts.ofTokens sequence .select analyze = .ok facts ∧
    facts.withQueries.keys = first :: more ∧ facts.tables = [table] ∧ facts.columns = [column] := by
  let clause := chainClause column table first more
  let bodies := Bodies.ofStatement sequence clause (Subquery.bodies sequence) analyze
  let spelled : List (String × Section) :=
    (none :: (first :: more).map some).map fun earlier => (spelledFrom column earlier, .select)
  have bare := bare_of_column named.isColumn
  have unlabelled : Places.declarations (withSigns (queryChain column table first more)) = [] := by
    refine StandaloneWith.undeclared fun part member => ?_
    obtain ⟨earlier, -, rfl⟩ := link_mem member
    exact unlabelled_link
  have undeclared : Facts.declarations sequence clause = [] := by
    rw [Places.declarations_eq standalone.signed rfl (by rw [unlabelled]; nofun), unlabelled]
  have mentioned : Column.mentions sequence [] [] = spelled.map mentionOf := by
    have all := standalone.mentions (known_chain named) []
    rw [unlabelled, parts_chain, List.flatMap_map] at all
    simp only [mentions_link] at all
    rw [List.map_map]
    exact all.trans List.map_eq_flatMap.symm
  have noAliases : Table.aliases sequence (Table.names sequence clause.names) = {} := by
    rw [tables_chain named standalone]
    exact standalone.tableAliases fun other inside => List.mem_singleton.mp inside ▸ named.isTable
  have means : ∀ name ∈ spelled.map (·.1), ∃ written,
      Column.meaning (Table.aliases sequence (Table.names sequence clause.names)) bodies name =
          .ok ([column], written) := by
    intro name member
    rw [noAliases]
    simp only [spelled, List.map_map, List.mem_map] at member
    obtain ⟨earlier, known, rfl⟩ := member
    refine meaning_linked bare (linked_chain named standalone analyzed) named.distinct fun name same => ?_
    subst same
    simpa using known
  obtain ⟨facts, found, columns, -, tables, queries⟩ :=
    exists_facts_bare standalone.withClause undeclared mentioned means
  refine ⟨facts, found, ?_, tables.trans (tables_chain named standalone),
    columns.trans (distinct_eq_singleton.mpr ⟨?_, ?_⟩)⟩
  · rw [queries]
    exact names_chain named
  · simp [spelled]
  · intro other member
    obtain ⟨name, -, here⟩ := List.mem_flatMap.mp member
    exact List.mem_singleton.mp here

end Sequence

end Statement

/-- A chain of common table expressions is traced from its end to the table whatever its length, with
one level of bodies and of parentheses. -/
theorem facts_queryChain {limits : Limits} (isColumn : IsColumnName column) (isTable : IsColumnName table)
    (areNames : ∀ name ∈ first :: more, IsColumnName name) (distinct : (first :: more).Nodup)
    (fresh : table ∉ first :: more)
    (levels : 1 ≤ limits.maxRecursionDepth) (deep : 1 ≤ limits.maxNestingDepth)
    (few : 11 * (more.length + 1) + 4 ≤ limits.maxTokens) :
    let query := Query.ofText (queryChain column table first more).text limits
    ∃ facts, query.facts = .ok facts ∧ facts.withQueries.keys = first :: more ∧ facts.tables = [table] ∧
      facts.columns = [column] := by
  intro query
  have named : Named column table first more := ⟨isColumn, isTable, areNames, distinct, fresh⟩
  have flat {part : Selection} (member : part ∈ (queryChain column table first more).parts) : part.depth = 0 :=
    flat_chain part member
  obtain ⟨sequence, standalone⟩ := exists_standaloneWith (known_chain named)
    (fun declared member => by rw [flat (WithSelection.body_mem_parts member)]; exact deep)
    (by rw [flat (WithSelection.main_mem_parts _)]; exact Nat.zero_le _) (length_chain.trans_le few)
  obtain ⟨below, above⟩ : ∃ below, limits.maxRecursionDepth = below + 1 := ⟨_, (Nat.sub_add_cancel levels).symm⟩
  have enough : 6 ≤ limits.maxTokens := by omega
  have analyzed (earlier : Option String) (known : ∀ name ∈ earlier, name ∈ first :: more) :
      ∃ facts, factsWithin limits below 1 (link column table earlier).text = .ok facts ∧
        facts.columns = [spelledFrom column earlier] ∧ facts.aliases = {} := by
    have body := facts_link isColumn isTable (fun name same => areNames name (known name same)) enough
    cases below <;> exact body _
  obtain ⟨facts, found, properties⟩ := facts_analyzed named standalone analyzed
  refine ⟨facts, ?_, properties⟩
  rw [facts_ofText, factsAt, above, Nat.sub_zero, factsWithin]
  simp only [statementFacts, bind, Except.bind, standalone.tokens, standalone.kind, found]

theorem facts_queryChain_three : ∃ facts, (Query.ofText
      "WITH c AS (SELECT a FROM t), d AS (SELECT c.a FROM c), e AS (SELECT d.a FROM d) SELECT e.a FROM e"
      { maxRecursionDepth := 1, maxNestingDepth := 1 }).facts = .ok facts ∧
    facts.withQueries.keys = ["c", "d", "e"] ∧ facts.tables = ["t"] ∧ facts.columns = ["a"] := by
  have isColumn : IsColumnName "a" := by decide
  have isTable : IsColumnName "t" := by decide
  have areNames : ∀ name ∈ ["c", "d", "e"], IsColumnName name := by decide
  have text : (queryChain "a" "t" "c" ["d", "e"]).text =
    "WITH c AS (SELECT a FROM t), d AS (SELECT c.a FROM c), e AS (SELECT d.a FROM d) SELECT e.a FROM e" := by decide
  have found : ∃ facts, (Query.ofText (queryChain "a" "t" "c" ["d", "e"]).text
      { maxRecursionDepth := 1, maxNestingDepth := 1 }).facts = .ok facts ∧ _ :=
    facts_queryChain isColumn isTable areNames (by decide) (by decide) (by decide) (by decide) (by decide)
  rw [text] at found
  exact found

end Proofs.QueryChain

end QueryFacts

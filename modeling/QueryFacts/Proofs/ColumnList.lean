import QueryFacts.Proofs.ColumnListStatement
import QueryFacts.Proofs.SelectFacts
import QueryFacts.Proofs.Unfolding

/-! Columns of a common table expression that declares their names. A declared name that is
also a column of the body means that column, and otherwise its position counts among the
distinct columns of the whole select list, so it can miss the item that it was declared for. -/

namespace QueryFacts
open Text

/-- The column that a declared name comes to mean. -/
def declaredColumn (query : String) (columns : List String) (place : Nat) (name : String) : String :=
  if name ∈ columns then name else (distinct columns)[place]?.getD (qualify query name)

namespace Proofs.ColumnList
open Lexeme PlainText Nesting StatementRun SelectList SelectFacts DeclaredQuery DeclaredColumns ColumnListStatement

section Resolution

variable {facts : Facts} {columns names : List String} {query name : String} {place : Nat}

theorem columnOf_declared (selects : Selects facts columns) (bare : ∀ column ∈ columns, '.' ∉ column.toList)
    (noStar : name ≠ "*") :
    Bodies.columnOf facts (some place) (qualify query name) name = [declaredColumn query columns place name] := by
  have last {column : String} (inside : column ∈ distinct columns) : lastPart column = column := by
    simp [lastPart, splitQualified?, splitAtLastDot_eq_none (bare column (mem_distinct.mp inside))]
  have noAlias : facts.aliases.contains name = false := by rw [selects.aliases]; rfl
  have noWildcard : facts.selected.any (fun other => ['.', '*'].isSuffixOf other.toList) = false := by
    rw [selects.selected, List.any_eq_false]
    intro column inside suffix
    have dot : '.' ∈ column.toList := (List.isSuffixOf_iff_suffix.mp suffix).subset (by simp)
    exact bare column (mem_distinct.mp inside) dot
  have byName {column : String} (inside : column ∈ distinct columns) :
      (column == name || lastPart column == name) = (column == name) := by
    rw [last inside, Bool.or_self]
  unfold Bodies.columnOf declaredColumn
  rw [if_neg noStar, noAlias, selects.columns, noWildcard]
  let matching : String → Bool := fun other => other == name || lastPart other == name
  cases found : (distinct columns).find? matching with
  | some column =>
    have inside := List.mem_of_find?_eq_some found
    have told : matching column = true := List.find?_some found
    obtain rfl : column = name := eq_of_beq (byName inside ▸ told)
    simp [mem_distinct.mp inside]
  | none =>
    have outside : name ∉ columns := fun inside => by
      have other := List.find?_eq_none.mp found name (mem_distinct.mpr inside)
      exact other (by simp [matching])
    simp only [outside, selects.selected, Option.bind_some, Bool.false_eq_true, if_false]
    cases (distinct columns)[place]? <;> rfl

theorem resolve_declared {bodies : Bodies} (known : bodies.facts? query = .ok (some facts))
    (selects : Selects facts columns)
    (listed : bodies.columnLists.find? query = some names) (once : names.Nodup) (here : names[place]? = some name)
    (bareName : '.' ∉ name.toList) (bare : ∀ column ∈ columns, '.' ∉ column.toList) (noStar : name ≠ "*") :
    bodies.resolve query name = .ok [declaredColumn query columns place name] := by
  have position : names.idxOf? name = some place := by
    obtain ⟨inside, same⟩ := List.getElem?_eq_some_iff.mp here
    refine List.idxOf?_eq_some_iff.mpr ⟨inside, same, fun earlier before again => ?_⟩
    have equal := (List.Nodup.getElem_inj_iff once).mp (again.trans same.symm)
    exact Nat.ne_of_lt before equal
  have looked : bodies.lookUp query name = .ok [declaredColumn query columns place name] := by
    rw [Bodies.lookUp, known, listed, Option.bind_some, position]
    exact congrArg Except.ok (columnOf_declared selects bare noStar)
  rw [Bodies.resolve, looked]
  have final : declaredColumn query columns place name = qualify query name ∨
      '.' ∉ (declaredColumn query columns place name).toList := by
    unfold declaredColumn
    split
    · exact .inr bareName
    · cases found : (distinct columns)[place]? with
      | none => exact .inl rfl
      | some column => exact .inr (bare column (mem_distinct.mp (List.mem_of_getElem? found)))
  rcases final with literal | ends
  · rw [literal]
    exact Unfolding.leaves_of_opened List.mem_cons_self
  · refine Unfolding.leaves_of_closed ?_ _
    simp [Bodies.graph, splitQualified?, splitAtLastDot_eq_none ends]

end Resolution

section Bodies

variable {parts : DeclaredQuery} {names : List String} {facts : Facts} {analyze : String → Except Error Facts}

theorem subqueries_none {sequence : TokenSequence}
    (none : ∀ token ∈ sequence.tokens, token.paren ≠ some ⟨.subquery, .closing⟩) :
    Subquery.bodies sequence = {} := by
  have empty : sequence.cursors.filterMap Subquery.named? = [] := by
    refine List.filterMap_eq_nil_iff.mpr fun cursor member => ?_
    obtain ⟨index, -, rfl⟩ := Cursor.mem_cursors member
    have closes : (sequence.cursor index).closes .subquery = false := by
      rw [Cursor.closes, Cursor.paren?]
      cases found : (sequence.cursor index).token? with
      | none => rfl
      | some token => exact beq_false_of_ne (none token (Cursor.mem_of_token? found))
    simp [Subquery.named?, closes]
  rw [Subquery.bodies, empty]
  rfl

theorem facts?_declared (analyzed : analyze (String.ofList (Token.writeAfter none parts.body)) = .ok facts) :
    (Bodies.ofStatement parts.sequence (declared parts) {} analyze).facts? parts.query.value = .ok (some facts) := by
  have found : (Bodies.ofStatement parts.sequence (declared parts) {} analyze).facts.find? parts.query.value =
      some (Thunk.mk fun _ => analyze (String.ofList (Token.writeAfter none parts.body))) := by
    simp [Bodies.ofStatement, declared, NameMap.ofFirstPairs, NameMap.insertNew, NameMap.contains, NameMap.find?]
  simp only [Bodies.facts?, found, Thunk.get, analyzed]

theorem columnLists_declared (readable : parts.Readable)
    (listed : parts.list.filterMap (fun token => name? (lexemeOf token)) = names) :
    (Bodies.ofStatement parts.sequence (declared parts) {} analyze).columnLists.find? parts.query.value =
        some names := by
  have same : (parts.list.filter (·.kind == .name)).map (·.value) = names := by
    rw [← listed, ← List.filterMap_eq_map, List.filterMap_filter]
    congr 1
    funext token
    by_cases name : token.kind = .name <;> simp [name?, lexemeOf, name]
  have positions := (names_listed readable).trans same
  simp [Bodies.ofStatement, declared, positions, NameMap.ofPairs, NameMap.find?_insert]

end Bodies

theorem columns_ne_nil (item : SelectItem) : item.columns ≠ [] := List.cons_ne_nil _ _

/-- A statement with a column list is analyzed, with a body that selects the columns of the items. -/
theorem analyzed_columnList {limits : Limits} (deep : 0 < limits.maxNestingDepth) {first name : String}
    {others : List String} {item : SelectItem} {items : List SelectItem}
    (names : ∀ name ∈ first :: others, IsColumnName name) (named : IsColumnName name)
    (columns : ∀ column ∈ (item :: items).flatMap SelectItem.columns, IsColumnName column)
    (few : 2 * (first :: others).length + 2 * ((item :: items).flatMap SelectItem.columns).length +
      14 ≤ limits.maxTokens)
    (levels depth : Nat) :
    ∃ (tokens : TokenSequence) (clause : WithClause) (facts : Facts),
      queryTokens limits (columnListText (first :: others) (item :: items) name) = .ok tokens ∧
      WithClause.ofTokens tokens = .ok clause ∧ Selects facts ((item :: items).flatMap SelectItem.columns) ∧
      let bodies := Bodies.ofStatement tokens clause (Subquery.bodies tokens) (factsWithin limits levels depth)
      bodies.facts? "cte" = .ok (some facts) ∧ bodies.columnLists.find? "cte" = some (first :: others) := by
  let lexemes := columnListLexemes first others item items name
  have fresh : Fresh (Nesting.start lexemes) := ⟨rfl, rfl, rfl⟩
  obtain ⟨selected, after, run, closed, tokens⟩ := runs_columnList fresh deep
  let statement := parts (Nesting.start lexemes) selected first others item items name
  have annotated : annotate limits lexemes = .ok statement.sequence :=
    (annotate_of_runs run closed).trans (by rw [tokens])
  have read := ofText_written (legible_columnList names named columns)
  have tokenized :
      queryTokens limits (columnListText (first :: others) (item :: items) name) = .ok statement.sequence := by
    rw [queryTokens, ← written_columnList]
    exact NestingRun.tokenize_ok_iff.mpr ⟨_, read, length_columnListLexemes ▸ few, annotated⟩
  have readable : statement.Readable := readable_parts fresh columns
  have noBody : Subquery.bodies statement.sequence = {} := subqueries_none (noSubquery fresh columns)
  have marks : ∀ link ∈ (item.linksBefore items).map (·.1), IsLink link := isLink_of_mem_linksBefore
  have inner : ∀ column ∈ item.first :: (item.linksBefore items).map (·.2), IsColumnName column :=
    columns_linksBefore item items ▸ columns
  have short : (selectLexemes true item.first (item.linksBefore items)).length ≤ limits.maxTokens := by
    have count := congrArg List.length (columns_linksBefore item items)
    simp only [List.length_cons, List.length_map] at count
    simp only [selectLexemes, List.length_cons, List.length_append, length_linked, List.length_nil]
    omega
  obtain ⟨facts, analyzed, selects⟩ := factsWithin_select levels depth inner marks short
  have body : String.ofList (Token.writeAfter none statement.body) = selectText item.first (item.linksBefore items) :=
    congrArg String.ofList (writeAfter_selectTokens _ inner marks)
  refine ⟨statement.sequence, declared statement, facts, tokenized, ofTokens_declared readable,
    columns_linksBefore item items ▸ selects, ?_, ?_⟩
  · rw [noBody]
    exact facts?_declared (body ▸ analyzed)
  · rw [noBody]
    exact columnLists_declared readable names_listTokens

/-- A declared name comes to mean the column of its name, or the one at its place among the
distinct columns of the whole select list, or itself. So it means the columns of the item it
was declared for exactly when each of these is that column. -/
theorem resolve_columnList_iff {limits : Limits} (deep : 0 < limits.maxNestingDepth) {names : List String}
    {items : List SelectItem} (once : names.Nodup) (known : ∀ name ∈ names, IsColumnName name)
    (columns : ∀ column ∈ items.flatMap SelectItem.columns, IsColumnName column)
    (few : 2 * names.length + 2 * (items.flatMap SelectItem.columns).length + 14 ≤ limits.maxTokens)
    {place : Nat} {name : String} {item : SelectItem} (named : names[place]? = some name)
    (selected : items[place]? = some item) (levels depth : Nat) :
    ∃ tokens clause, queryTokens limits (columnListText names items name) = .ok tokens ∧
      WithClause.ofTokens tokens = .ok clause ∧
      let bodies := Bodies.ofStatement tokens clause (Subquery.bodies tokens) (factsWithin limits levels depth)
      let meant := declaredColumn "cte" (items.flatMap SelectItem.columns) place name
      bodies.resolve "cte" name = .ok [meant] ∧
        (bodies.resolve "cte" name = .ok (distinct item.columns) ↔ ∀ column ∈ item.columns, column = meant) := by
  have isName : IsColumnName name := known name (List.mem_of_getElem? named)
  have noStar : name ≠ "*" := by
    rintro rfl
    exact absurd isName.spelled (by decide)
  cases names with
  | nil => cases named
  | cons first others =>
    cases items with
    | nil => cases selected
    | cons head rest =>
      obtain ⟨tokens, clause, facts, tokenized, read, selects, analyzed, listed⟩ :=
        analyzed_columnList deep known isName columns few levels depth
      have resolved := resolve_declared analyzed selects listed once named (bare_of_column isName)
        (fun column member => bare_of_column (columns column member)) noStar
      refine ⟨tokens, clause, tokenized, read, resolved, ?_⟩
      rw [resolved, Except.ok.injEq, eq_comm, distinct_eq_singleton]
      exact and_iff_right (columns_ne_nil item)

/-- A declared name that the body selects at another place means the column of its name. -/
theorem resolve_columnList_crossed : ∃ tokens clause,
    queryTokens {} "WITH cte (a, b) AS (SELECT c, a FROM t) SELECT cte.a FROM cte" = .ok tokens ∧
      WithClause.ofTokens tokens = .ok clause ∧
      let bodies := Bodies.ofStatement tokens clause (Subquery.bodies tokens) (factsWithin {} 15 1)
      bodies.resolve "cte" "a" = .ok ["a"] ∧ bodies.resolve "cte" "a" ≠ .ok ["c"] := by
  let names := ["a", "b"]
  let items : List SelectItem := [⟨"c", []⟩, ⟨"a", []⟩]
  have a : IsColumnName "a" := ⟨by decide, by decide, by decide⟩
  have b : IsColumnName "b" := ⟨by decide, by decide, by decide⟩
  have c : IsColumnName "c" := ⟨by decide, by decide, by decide⟩
  have known : ∀ name ∈ names, IsColumnName name := by simp [names, a, b]
  have columns : ∀ column ∈ items.flatMap SelectItem.columns, IsColumnName column := by
    simp [items, SelectItem.columns, a, c]
  have deep : 0 < ({} : Limits).maxNestingDepth := by decide
  have text :
      columnListText names items "a" = "WITH cte (a, b) AS (SELECT c, a FROM t) SELECT cte.a FROM cte" := by decide
  have named : names[0]? = some "a" := rfl
  have selected : items[0]? = some ⟨"c", []⟩ := rfl
  obtain ⟨tokens, clause, tokenized, read, resolved, same⟩ :=
    resolve_columnList_iff deep (by decide) known columns (by decide) named selected 15 1
  refine ⟨tokens, clause, text ▸ tokenized, read, resolved, fun first => ?_⟩
  have meant := same.mp first "c" (by decide)
  exact absurd meant (by decide)

end Proofs.ColumnList

end QueryFacts

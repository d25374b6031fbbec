import Mathlib.Data.List.Find
import QueryFacts.Proofs.RecursionLimit
import QueryFacts.Proofs.Selections.LabelColumns

/-! The columns behind those of a sub-query that selects from two joined tables. A label leads
to the column of its item, but a column without a label is looked up by its name among all
columns of the sub-query, so another item may come first. -/

namespace QueryFacts
open Text

/-- The item that the name of an item leads to. -/
def Projection.standIn (items : List Projection) (item : Projection) : Projection :=
  if item.label.isSome then item else (items.find? (·.column == item.column)).getD item

/-- `SELECT name.exposed FROM (SELECT items FROM first JOIN second ON first.key = second.key) name` -/
def selectExposed (item : Projection) (more : List Projection) (first second key name exposed : String) : Selection :=
  .nested { qualifier := name, column := exposed } [] (.join item more first second key) name

namespace Proofs.Lineage
open Lexeme SelectList Selections MeantColumns RecursionLimit Unfolding

section Labels

variable {items : List Projection}

theorem mem_labels {pair : String × String} (member : pair ∈ labels items) :
    ∃ item ∈ items, (∃ label, item.label = some label) ∧ pair = (item.exposed, item.spelled) := by
  obtain ⟨item, inside, here⟩ := List.mem_flatMap.mp member
  obtain ⟨label, found, rfl⟩ := List.mem_map.mp here
  have labelled : item.label = some label := Option.mem_toList.mp found
  exact ⟨item, inside, ⟨label, labelled⟩, by rw [Projection.exposed, labelled]; rfl⟩

theorem lookup_labels_fresh {name : String} (fresh : name ∉ items.map Projection.exposed) :
    (labels items).lookup name = none := by
  refine List.lookup_eq_none_iff.mpr fun pair member => bne_iff_ne.mpr fun same => fresh ?_
  obtain ⟨item, inside, -, rfl⟩ := mem_labels member
  exact List.mem_map.mpr ⟨item, inside, same.symm⟩

/-- A name is looked up among the labels with the item that it is for. -/
theorem lookup_labels (distinct : (items.map Projection.exposed).Nodup) {item : Projection} (member : item ∈ items) :
    (labels items).lookup item.exposed = item.label.map fun _ => item.spelled := by
  induction items with
  | nil => cases member
  | cons other rest ih =>
    obtain ⟨fresh, distinctRest⟩ := List.nodup_cons.mp distinct
    have parts : labels (other :: rest) = labels [other] ++ labels rest := by
      rw [labels, labels, labels, List.flatMap_cons, List.flatMap_singleton]
    rw [parts, List.lookup_append]
    rcases List.mem_cons.mp member with rfl | later
    · rw [lookup_labels_fresh fresh, Option.or_none]
      cases label : item.label with
      | none => simp [labels, label]
      | some found => simp [labels, label, Projection.exposed]
    · have apart : item.exposed ∉ [other].map Projection.exposed := by
        intro inside
        have same : item.exposed = other.exposed := by simpa using inside
        exact fresh (same ▸ List.mem_map_of_mem later)
      rw [lookup_labels_fresh apart, Option.none_or]
      exact ih distinctRest later

end Labels

section Columns

variable {items : List Projection} {first second key : String}

/-- The columns that a sub-query mentions, in the order of the text. -/
def mentioned (items : List Projection) (first second key : String) : List String :=
  items.map Projection.spelled ++ [qualify first key, qualify second key]

/-- All items are columns of one of the tables. -/
def FromTables (first second : String) (items : List Projection) : Prop :=
  ∀ item ∈ items, item.qualifier = some first ∨ item.qualifier = some second

theorem FromTables.qualified (tables : FromTables first second items) {item : Projection} (member : item ∈ items) :
    ∃ qualifier, item.qualifier = some qualifier ∧ (qualifier = first ∨ qualifier = second) :=
  (tables item member).elim (fun same => ⟨first, same, .inl rfl⟩) fun same => ⟨second, same, .inr rfl⟩

theorem spelled_of_qualified {item : Projection} {qualifier : String} (same : item.qualifier = some qualifier) :
    item.spelled = qualify qualifier item.column := by rw [Projection.spelled, same]

theorem lastPart_qualify {column : String} (bare : '.' ∉ column.toList) (qualifier : String) :
    lastPart (qualify qualifier column) = column := by
  rw [lastPart, splitQualified?_qualify bare]
  rfl

/-- By its name, the first item with a column is found. -/
theorem find?_mentioned (tables : FromTables first second items)
    (known : ∀ item ∈ items, item.Known) {item : Projection}
    (member : item ∈ items) :
    (distinct (mentioned items first second key)).find?
      (fun other => other == item.column || lastPart other == item.column) =
      some ((items.find? (·.column == item.column)).getD item).spelled := by
  have tests : ∀ other ∈ items, (other.spelled == item.column || lastPart other.spelled == item.column) =
      (other.column == item.column) := by
    intro other inside
    obtain ⟨qualifier, same, -⟩ := tables.qualified inside
    have dotted : qualify qualifier other.column ≠ item.column := fun same => by
      have bare := bare_of_column (known item member).column
      rw [← same] at bare
      simp [qualify] at bare
    rw [spelled_of_qualified same, lastPart_qualify (bare_of_column (known other inside).column),
      beq_eq_false_iff_ne.mpr dotted, Bool.false_or]
  have found : (items.find? (·.column == item.column)).isSome :=
    List.find?_isSome.mpr ⟨item, member, beq_self_eq_true _⟩
  obtain ⟨other, there⟩ := Option.isSome_iff_exists.mp found
  have same : items.find? (fun other => other.spelled == item.column || lastPart other.spelled == item.column) =
      items.find? (·.column == item.column) := List.find?_congr tests
  rw [find?_distinct, mentioned, List.find?_append, List.find?_map, Function.comp_def, same, there]
  rfl

end Columns

/-- An alias of one column, which is no alias itself, stands for it. -/
theorem resolve_single {aliases : NameMap AliasTarget} {label column : String}
    (known : aliases.find? label = some (.column column)) (ends : aliases.find? column = none) :
    Alias.resolve aliases label = [column] := by
  have opening : (Alias.graph aliases).successors label = some (.ok [column]) := by
    show (aliases.find? label).map _ = _
    rw [known]
    rfl
  have closed : (Alias.graph aliases).successors column = none := by
    show (aliases.find? column).map _ = _
    rw [ends]
    rfl
  have leaves : (Alias.graph aliases).leaves [label] [] = .ok [column] := by
    obtain ⟨within, step⟩ : ∃ within, (Alias.graph aliases).leaves [label] [] =
        (Alias.graph aliases).walk [label] [column] [label] [] within := walk_opens opening (List.not_mem_nil)
    exact step.trans (walk_closed closed)
  rw [Alias.resolve, leaves]

section Body

variable {limits : Limits} {head : Projection} {more : List Projection} {first second key : String}

/-- The names in a sub-query that selects from two tables. -/
structure Named (head : Projection) (more : List Projection) (first second key : String) : Prop where
  items : ∀ item ∈ head :: more, item.Known
  tables : FromTables first second (head :: more)
  isFirst : IsColumnName first
  isSecond : IsColumnName second
  isKey : IsColumnName key
  distinct : ((head :: more).map Projection.exposed).Nodup

def aliasesOf (items : List Projection) : NameMap AliasTarget :=
  NameMap.ofFirstPairs ((labels items).map fun (name, column) => (name, AliasTarget.column column))

theorem find?_aliasesOf (items : List Projection) (name : String) :
    (aliasesOf items).find? name = ((labels items).lookup name).map AliasTarget.column :=
  NameMap.find?_ofFirstPairs_map _ AliasTarget.column name

variable (named : Named head more first second key)
include named

theorem known_join : (Selection.join head more first second key).Known :=
  ⟨named.items, named.isFirst, named.isSecond, named.isKey⟩

theorem exposed_known {item : Projection} (member : item ∈ head :: more) : IsColumnName item.exposed := by
  have known := named.items item member
  rw [Projection.exposed]
  cases label : item.label with
  | none => exact known.column
  | some found => exact known.label found label

theorem spelled_ne {item other : Projection} (member : item ∈ head :: more) (also : other ∈ head :: more) :
    item.spelled ≠ other.exposed := by
  intro same
  obtain ⟨qualifier, table, -⟩ := named.tables.qualified member
  have bare := bare_of_column (exposed_known named also)
  rw [← same, spelled_of_qualified table] at bare
  simp [qualify] at bare

/-- A qualified column is no label. -/
theorem lookup_spelled {item : Projection} (member : item ∈ head :: more) :
    (labels (head :: more)).lookup item.spelled = none := by
  refine lookup_labels_fresh fun inside => ?_
  obtain ⟨other, there, same⟩ := List.mem_map.mp inside
  exact spelled_ne named member there same.symm

theorem resolve_label {item : Projection} (member : item ∈ head :: more) {label : Label}
    (labelled : item.label = some label) :
    Alias.resolve (aliasesOf (head :: more)) item.exposed = [item.spelled] := by
  refine resolve_single ?_ ?_
  · rw [find?_aliasesOf, lookup_labels named.distinct member, labelled]
    rfl
  · rw [find?_aliasesOf, lookup_spelled named member]
    rfl

theorem resolve_contained {name : String} (known : (aliasesOf (head :: more)).contains name) :
    ∃ item ∈ head :: more, Alias.resolve (aliasesOf (head :: more)) name = [item.spelled] := by
  rw [NameMap.contains, find?_aliasesOf, Option.isSome_map] at known
  obtain ⟨column, found⟩ := Option.isSome_iff_exists.mp known
  obtain ⟨before, after, parts, -⟩ := List.lookup_eq_some_iff.mp found
  obtain ⟨item, inside, ⟨label, labelled⟩, same⟩ :=
    mem_labels (show (name, column) ∈ labels (head :: more) by simp [parts])
  obtain ⟨rfl, -⟩ := Prod.mk.inj same
  exact ⟨item, inside, resolve_label named inside labelled⟩

/-- Without other bodies, the columns that the sub-query mentions stand for themselves. -/
theorem meaning_mentioned {bodies : Bodies} (none : ∀ name, bodies.contains name = false) :
    ∀ name ∈ mentioned (head :: more) first second key, ∃ written, Column.meaning {} bodies name =
        .ok ([name], written) := by
  have unknown {qualifier column : String} (isColumn : IsColumnName column) :
      ∃ written, Column.meaning {} bodies (qualify qualifier column) = .ok ([qualify qualifier column], written) :=
    ⟨_, meaning_unknown (bare_of_column isColumn) rfl (none qualifier)⟩
  intro name member
  rcases List.mem_append.mp member with listed | condition
  · obtain ⟨item, inside, rfl⟩ := List.mem_map.mp listed
    obtain ⟨qualifier, same, -⟩ := named.tables.qualified inside
    rw [spelled_of_qualified same]
    exact unknown (named.items item inside).column
  · simp only [List.mem_cons, List.not_mem_nil, or_false] at condition
    rcases condition with rfl | rfl <;> exact unknown named.isKey

/-- The facts of the sub-query by itself. -/
theorem facts_join (few : (lexemes true (.join head more first second key)).length ≤ limits.maxTokens)
    (analyze : String → Except Error Facts) :
    ∃ facts, statementFacts limits (Selection.join head more first second key).text analyze = .ok facts ∧
      facts.columns = distinct (mentioned (head :: more) first second key) ∧
          facts.aliases = aliasesOf (head :: more) := by
  let selection := Selection.join head more first second key
  obtain ⟨sequence, standalone⟩ := exists_standalone (known_join named) (Nat.zero_le _) few
  let spelled : List (String × Section) :=
    (head :: more).map (fun item => (item.spelled, .select)) ++
      [(qualify first key, .join), (qualify second key, .join)]
  have names : spelled.map (·.1) = mentioned (head :: more) first second key := by
    simp [spelled, mentioned, Function.comp_def]
  have noBodies : Subquery.bodies sequence = {} := standalone.subqueries
  have declared : Facts.declarations sequence {} = Places.declarations (signs none none false true selection) :=
    Places.declarations_eq standalone.signed rfl (by rw [noBodies]; exact fun _ _ member => nomatch member)
  have mentions (aliasNames : List String) : Column.mentions sequence aliasNames
      ((Facts.declarations sequence {}).map (·.position)) = spelled.map mentionOf := by
    rw [declared, standalone.mentions (known_join named), Selection.mentions, List.map_append, List.map_map]
    congr 1
    refine List.map_congr_left fun item member => ?_
    obtain ⟨qualifier, same, -⟩ := named.tables.qualified member
    simp [Projection.mention, same, mentionOf]
  have noAliases : Table.aliases sequence (Table.names sequence (WithClause.names {})) = {} := by
    refine standalone.tableAliases fun table inside => ?_
    rw [standalone.tables] at inside
    have either : table ∈ [first, second] := mem_distinct.mp (List.mem_filter.mp inside).1
    simp only [List.mem_cons, List.not_mem_nil, or_false] at either
    rcases either with rfl | rfl
    · exact named.isFirst
    · exact named.isSecond
  have means : ∀ name ∈ spelled.map (·.1), ∃ written,
      Column.meaning (Table.aliases sequence (Table.names sequence (WithClause.names {})))
        (Bodies.ofStatement sequence {} (Subquery.bodies sequence) analyze) name = .ok ([name], written) := by
    rw [noAliases, noBodies, names]
    exact meaning_mentioned named fun _ => rfl
  have targets (known : NameMap (List String)) (all : ∀ name ∈ spelled.map (·.1), known.find? name = some [name]) :
      ∃ aliases, AliasDeclaration.targets (Facts.declarations sequence {}) sequence
        ⟨known, Facts.declaredNames sequence {}⟩ (Bodies.ofStatement sequence {} (Subquery.bodies sequence) analyze) =
          .ok aliases ∧ aliases = aliasesOf (head :: more) := by
    refine ⟨_, ?_, rfl⟩
    rw [declared]
    refine standalone.targets rfl (fun item member => ?_) (fun item member => all _ ?_) fun pair member => ?_
    · obtain ⟨qualifier, same, -⟩ := named.tables.qualified member
      exact ⟨qualifier, same⟩
    · rw [names]
      exact List.mem_append_left _ (List.mem_map_of_mem member)
    · obtain ⟨item, inside, -, rfl⟩ := mem_labels member
      exact spelled_ne named inside inside
  have stands (aliases : NameMap AliasTarget) (same : aliases = aliasesOf (head :: more)) (label : String)
      (known : aliases.contains label) :
      ∀ name ∈ Alias.resolve aliases label, name ∈ (spelled.map (·.1)).flatMap ([·]) := by
    subst same
    obtain ⟨item, inside, single⟩ := resolve_contained named known
    intro name member
    rw [single] at member
    rw [List.flatMap_singleton', names, List.mem_singleton.mp member]
    exact List.mem_append_left _ (List.mem_map_of_mem inside)
  obtain ⟨facts, found, columns, aliases, -⟩ := exists_facts standalone.withClause (mentions _) means
    (· = aliasesOf (head :: more)) targets stands
  refine ⟨facts, ?_, ?_, aliases⟩
  · simp only [statementFacts, bind, Except.bind, standalone.tokens, standalone.kind, found]
  · rw [columns, names, List.flatMap_singleton']

omit named in
theorem standIn_mem {items : List Projection} {item : Projection} (member : item ∈ items) :
    item.standIn items ∈ items := by
  unfold Projection.standIn
  split
  · exact member
  · cases found : items.find? (·.column == item.column) with
    | none => exact member
    | some other => exact List.mem_of_find?_eq_some found

omit named in
theorem standIn_column {items : List Projection} {item : Projection} : (item.standIn items).column = item.column := by
  unfold Projection.standIn
  split
  · rfl
  · cases found : items.find? (·.column == item.column) with
    | none => rfl
    | some other =>
      have same := List.find?_some found
      exact eq_of_beq same

/-- A name that the sub-query exposes is looked up as its stand-in. -/
theorem lookUp_exposed {bodies : Bodies} {name : String} {facts : Facts} (known : bodies.facts? name = .ok (some facts))
    (columns : facts.columns = distinct (mentioned (head :: more) first second key))
    (aliases : facts.aliases = aliasesOf (head :: more)) {item : Projection} (member : item ∈ head :: more) :
    bodies.lookUp name item.exposed = .ok [(item.standIn (head :: more)).spelled] := by
  have noStar : item.exposed ≠ "*" := (value_of_name (exposed_known named member)).2.2.2.2
  have told : facts.aliases.contains item.exposed = item.label.isSome := by
    rw [aliases, NameMap.contains, find?_aliasesOf, lookup_labels named.distinct member,
      Option.isSome_map, Option.isSome_map]
  rw [Bodies.lookUp, known]
  refine congrArg Except.ok ?_
  unfold Projection.standIn
  cases label : item.label with
  | some found =>
    rw [label] at told
    simp only [Bodies.columnOf, if_neg noStar, told, Option.isSome_some, if_true]
    rw [aliases]
    exact resolve_label named member label
  | none =>
    rw [label] at told
    have exposed : item.exposed = item.column := by rw [Projection.exposed, label]; rfl
    have found : (distinct (mentioned (head :: more) first second key)).find? _ = _ :=
      find?_mentioned named.tables named.items member
    rw [← columns, ← exposed] at found
    simp only [Bodies.columnOf, if_neg noStar, told, Option.isSome_none, Bool.false_eq_true, if_false, found, ← exposed]

end Body

section Statement

variable {limits : Limits} {head : Projection} {more : List Projection} {first second key name : String}

theorem known_selectExposed (named : Named head more first second key) (isName : IsColumnName name) {item : Projection}
    (member : item ∈ head :: more) : (selectExposed head more first second key name item.exposed).Known := by
  refine ⟨fun other inside => ?_, known_join named, isName⟩
  obtain rfl := List.mem_singleton.mp inside
  exact ⟨fun qualifier same => by cases same; exact isName, exposed_known named member, nofun⟩

/-- The sub-query is the only body. -/
theorem bodyText_selectExposed {exposed : String} {sequence : TokenSequence}
    (standalone : Standalone limits (selectExposed head more first second key name exposed) sequence) (other : String) :
    bodyText {} (Subquery.bodies sequence) other =
      if other = name then some (Selection.join head more first second key).text else none := by
  have single (text : String) : [(name, text)].lookup other = if other = name then some text else none := by
    by_cases same : other = name
    · simp [same]
    · simp [List.lookup_cons, beq_eq_false_iff_ne.mpr same, same]
  rw [bodyText, standalone.subqueries, NameMap.find?_ofFirstPairs]
  exact Option.or_none.trans (single _)

/-- A column of the sub-query is traced to that of its stand-in. So it is traced to its own column exactly
when no item in front of it takes its place with a column of the other table. -/
theorem resolve_exposed_iff (items : ∀ item ∈ head :: more, item.Known)
    (tables : ∀ item ∈ head :: more, item.qualifier = some first ∨ item.qualifier = some second)
    (distinct : ((head :: more).map Projection.exposed).Nodup) (isFirst : IsColumnName first)
    (isSecond : IsColumnName second)
    (isKey : IsColumnName key) (isName : IsColumnName name) (apart : name ≠ first ∧ name ≠ second) {item : Projection}
    (member : item ∈ head :: more) (deep : 1 ≤ limits.maxNestingDepth)
    (few : (lexemes true (selectExposed head more first second key name item.exposed)).length ≤ limits.maxTokens)
    (levels depth : Nat) :
    ∃ tokens, queryTokens limits (selectExposed head more first second key name item.exposed).text = .ok tokens ∧
      WithClause.ofTokens tokens = .ok {} ∧
      let bodies := Bodies.ofStatement tokens {} (Subquery.bodies tokens) (factsWithin limits levels depth)
      bodies.resolve name item.exposed = .ok [(item.standIn (head :: more)).spelled] ∧
        (bodies.resolve name item.exposed = .ok [item.spelled] ↔
          (item.standIn (head :: more)).qualifier = item.qualifier) := by
  have named : Named head more first second key := ⟨items, tables, isFirst, isSecond, isKey, distinct⟩
  obtain ⟨sequence, standalone⟩ := exists_standalone (known_selectExposed named isName member) deep few
  have short : (lexemes true (.join head more first second key)).length ≤ limits.maxTokens := by
    refine Nat.le_trans ?_ few
    simp only [selectExposed, lexemes, List.length_cons, List.length_append]
    omega
  obtain ⟨facts, analyzed, columns, aliases⟩ :
      ∃ facts, factsWithin limits levels depth (Selection.join head more first second key).text = .ok facts ∧
        facts.columns = QueryFacts.distinct (mentioned (head :: more) first second key) ∧
        facts.aliases = aliasesOf (head :: more) := by
    cases levels <;> exact facts_join named short _
  let bodies := Bodies.ofStatement sequence {} (Subquery.bodies sequence) (factsWithin limits levels depth)
  have text := bodyText_selectExposed standalone
  have looked : bodies.lookUp name item.exposed = .ok [(item.standIn (head :: more)).spelled] :=
    lookUp_exposed named (facts?_ofStatement ((text name).trans (if_pos rfl)) analyzed) columns aliases member
  have inside := standIn_mem member
  obtain ⟨qualifier, same, table⟩ := named.tables.qualified inside
  have spelled := spelled_of_qualified same
  have closed : bodies.graph.successors (item.standIn (head :: more)).spelled = none := by
    have different : qualifier ≠ name := by
      rcases table with rfl | rfl
      · exact apart.1.symm
      · exact apart.2.symm
    have noBody : bodies.contains qualifier = false := by
      rw [Bodies.contains, NameMap.contains, find?_ofStatement, text, if_neg different]
      rfl
    simp [Bodies.graph, spelled, splitQualified?_qualify (bare_of_column (items _ inside).column), noBody]
  have resolved : bodies.resolve name item.exposed = .ok [(item.standIn (head :: more)).spelled] := by
    rw [Bodies.resolve, looked]
    exact leaves_of_closed closed _
  refine ⟨sequence, standalone.tokens, standalone.withClause, resolved, ?_⟩
  obtain ⟨own, from', -⟩ := named.tables.qualified member
  rw [resolved, spelled, spelled_of_qualified from', same, from', standIn_column]
  constructor
  · intro both
    exact congrArg some (qualify_left_inj (List.cons.inj (Except.ok.inj both)).1)
  · intro both
    rw [Option.some.inj both]

/-- A column that the sub-query exposes under another name only takes the place of one that it exposes. -/
theorem resolve_exposed_crossed : ∃ tokens,
    queryTokens {} "SELECT sq.a FROM (SELECT t.a AS b, u.a FROM t JOIN u ON t.k = u.k) sq" = .ok tokens ∧
      WithClause.ofTokens tokens = .ok {} ∧
      let bodies := Bodies.ofStatement tokens {} (Subquery.bodies tokens) (factsWithin {} 15 1)
      bodies.resolve "sq" "a" = .ok ["t.a"] ∧ bodies.resolve "sq" "a" ≠ .ok ["u.a"] := by
  let head : Projection := ⟨some "t", "a", some ⟨"b", true⟩⟩
  let item : Projection := ⟨some "u", "a", none⟩
  have a : IsColumnName "a" := by decide
  have b : IsColumnName "b" := by decide
  have k : IsColumnName "k" := by decide
  have t : IsColumnName "t" := by decide
  have u : IsColumnName "u" := by decide
  have sq : IsColumnName "sq" := by decide
  have items : ∀ other ∈ [head, item], other.Known := by
    intro other member
    simp only [List.mem_cons, List.not_mem_nil, or_false] at member
    rcases member with rfl | rfl
    · exact ⟨by simp [head, t], a, by simp [head, b]⟩
    · exact ⟨by simp [item, u], a, nofun⟩
  have text : (selectExposed head [item] "t" "u" "k" "sq" item.exposed).text =
    "SELECT sq.a FROM (SELECT t.a AS b, u.a FROM t JOIN u ON t.k = u.k) sq" := by decide
  obtain ⟨tokens, tokenized, read, resolved, same⟩ :=
    resolve_exposed_iff items (by simp [head, item]) (by decide) t u k sq
    (by decide) (show item ∈ [head, item] by simp) (show 1 ≤ ({} : Limits).maxNestingDepth by decide) (by decide) 15 1
  rw [text] at tokenized
  refine ⟨tokens, tokenized, read, resolved, fun own => ?_⟩
  exact absurd (same.mp own) (by decide)

end Statement

end Proofs.Lineage

end QueryFacts

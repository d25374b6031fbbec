import QueryFacts.Proofs.CoherentFacts
import QueryFacts.Proofs.Unfolding

/-! The facts of a statement in which it is known what every mention of a column means. The
columns are those that are meant, and an alias adds none to them if it stands for some of them. -/

namespace QueryFacts
open Text

/-- The columns that a mention means. -/
def Column.Reference.columns : Column.Reference → List String
  | .column columns _ _ => columns
  | .aliasName _ _ => []

namespace Proofs.MeantColumns

/-- What notes on columns leave alone. -/
structure Keeps (facts after : Facts) : Prop where
  tables : after.tables = facts.tables
  tableAliases : after.tableAliases = facts.tableAliases
  aliases : after.aliases = facts.aliases
  withQueries : after.withQueries = facts.withQueries
  subqueries : after.subqueries = facts.subqueries

theorem Keeps.trans {first second third : Facts} (left : Keeps first second) (right : Keeps second third) :
    Keeps first third :=
  ⟨right.tables.trans left.tables, right.tableAliases.trans left.tableAliases, right.aliases.trans left.aliases,
    right.withQueries.trans left.withQueries, right.subqueries.trans left.subqueries⟩

theorem keeps_foldl {α : Type} {step : Facts → α → Facts} (each : ∀ facts item, Keeps facts (step facts item))
    (items : List α) (facts : Facts) : Keeps facts (items.foldl step facts) :=
  List.foldlRecOn (motive := Keeps facts) items step ⟨rfl, rfl, rfl, rfl, rfl⟩ fun after kept item _ =>
    kept.trans (each after item)

theorem keeps_addDeclaration (facts : Facts) (declaration : AliasDeclaration) :
    Keeps facts (facts.addDeclaration declaration) := by
  unfold Facts.addDeclaration
  split <;> exact ⟨rfl, rfl, rfl, rfl, rfl⟩

theorem keeps_addReference (facts : Facts) (reference : Column.Reference) :
    Keeps facts (facts.addReference reference) := by
  unfold Facts.addReference
  split
  · exact ⟨rfl, rfl, rfl, rfl, rfl⟩
  · split <;> exact ⟨rfl, rfl, rfl, rfl, rfl⟩

/-- What the facts say of tables, aliases and bodies does not change with the columns that are noted. -/
theorem keeps_completed (tokens : TokenSequence) (clause : WithClause) (aliases : NameMap AliasTarget)
    (references : List Column.Reference) :
    Keeps (Facts.unread tokens clause aliases) (Facts.completed (Facts.read tokens clause aliases references)) := by
  have declared :=
    keeps_foldl keeps_addDeclaration (Facts.declarations tokens clause) (Facts.unread tokens clause aliases)
  have noted := declared.trans (keeps_foldl keeps_addReference references _)
  have adds (facts : Facts) (uses : Section × List String) : Keeps facts (facts.addAliasColumns uses) :=
    ⟨rfl, rfl, rfl, rfl, rfl⟩
  have used := noted.trans (keeps_foldl adds (Facts.read tokens clause aliases references).aliasesBySection _)
  exact used.trans ⟨rfl, rfl, rfl, rfl, rfl⟩

section Columns

/-- A reference to columns in a clause. -/
def InClause (reference : Column.Reference) : Prop :=
  ∃ columns written sec, reference = .column columns written (some sec)

theorem addReferences {references : List Column.Reference} (clauses : ∀ reference ∈ references, InClause reference)
    (facts : Facts) (known : ∀ name ∈ facts.columnsBySection.names, name ∈ facts.columns) :
    let after := references.foldl Facts.addReference facts
    after.columns = addAllNew facts.columns (references.flatMap Column.Reference.columns) ∧
      ∀ name ∈ after.columnsBySection.names, name ∈ after.columns := by
  induction references generalizing facts with
  | nil => exact ⟨rfl, known⟩
  | cons reference rest ih =>
    obtain ⟨columns, written, sec, rfl⟩ := clauses reference List.mem_cons_self
    let next := facts.addReference (.column columns written (some sec))
    have inside : ∀ name ∈ next.columnsBySection.names, name ∈ next.columns := by
      intro name member
      rcases SectionMap.mem_names_add.mp member with old | new
      · exact mem_addAllNew.mpr (.inl (known name old))
      · exact mem_addAllNew.mpr (.inr new)
    obtain ⟨found, within⟩ := ih (fun other member => clauses other (List.mem_cons_of_mem _ member)) next inside
    refine ⟨found.trans ?_, within⟩
    rw [List.flatMap_cons, addAllNew_append]
    rfl

/-- Aliases that stand for columns that are known add none. -/
theorem columns_completed {facts : Facts} (known : ∀ name ∈ facts.columnsBySection.names, name ∈ facts.columns)
    (stands : ∀ label, facts.aliases.contains label →
      ∀ name ∈ Alias.resolve facts.aliases label, name ∈ facts.columns) :
    (Facts.completed facts).columns = facts.columns ∧ Keeps facts (Facts.completed facts) := by
  let Holds (after : Facts) := (∀ name ∈ after.columnsBySection.names, name ∈ facts.columns) ∧
    after.columns = facts.columns ∧ Keeps facts after
  have all : Holds (facts.aliasesBySection.foldl Facts.addAliasColumns facts) := by
    refine List.foldlRecOn (motive := Holds) _ _ ⟨known, rfl, rfl, rfl, rfl, rfl, rfl⟩ ?_
    rintro after ⟨inside, same, kept⟩ use -
    have added : ∀ name ∈ (after.addAliasColumns use).columnsBySection.names, name ∈ facts.columns := by
      refine List.foldlRecOn (motive := fun map : SectionMap => ∀ name ∈ map.names, name ∈ facts.columns) _ _ inside ?_
      intro map within columns member name new
      obtain ⟨label, listed, rfl⟩ := List.mem_map.mp member
      rw [kept.aliases] at listed new
      exact (SectionMap.mem_names_add.mp new).elim (within name) (stands label (List.mem_filter.mp listed).2 name)
    exact ⟨added, same, kept.trans ⟨rfl, rfl, rfl, rfl, rfl⟩⟩
  obtain ⟨inside, same, kept⟩ := all
  refine ⟨?_, kept.trans ⟨rfl, rfl, rfl, rfl, rfl⟩⟩
  exact (addAllNew_of_subset fun name member => same ▸ inside name member).trans same

/-- A mention of a column by name. -/
def mentionOf (spelled : String × Section) : Column.Mention := .column spelled.1 spelled.2

variable {tableAliases : NameMap String} {bodies : Bodies} {meant : String → List String}

/-- When every mention has a meaning, each is noted with it. -/
theorem scan_meant {spelled : List (String × Section)} (means : ∀ name ∈ spelled.map (·.1),
      ∃ written, Column.meaning tableAliases bodies name = .ok (meant name, written))
    (scan : Column.Scan) (known : ∀ name found, scan.known.find? name = some found → found = meant name) :
    ∃ after : Column.Scan, (spelled.map mentionOf).foldlM (Column.Scan.add tableAliases bodies) scan = .ok after ∧
      (∀ name found, after.known.find? name = some found → found = meant name) ∧
      (∀ name, (scan.known.find? name).isSome ∨ name ∈ spelled.map (·.1) → (after.known.find? name).isSome) ∧
      ∃ references, after.references = scan.references ++ references ∧ (∀ reference ∈ references, InClause reference) ∧
        references.flatMap Column.Reference.columns = (spelled.map (·.1)).flatMap meant := by
  induction spelled generalizing scan with
  | nil => exact ⟨scan, rfl, known, fun name either => either.elim id nofun, [], by simp, nofun, rfl⟩
  | cons first rest ih =>
    obtain ⟨name, sec⟩ := first
    obtain ⟨written, told⟩ := means name List.mem_cons_self
    let reference := Column.Reference.column (meant name) written (some sec)
    let next : Column.Scan := ⟨scan.references ++ [reference], scan.known.insertNew name (meant name)⟩
    have step : Column.Scan.add tableAliases bodies scan (mentionOf (name, sec)) = .ok next := by
      simp only [mentionOf, Column.Scan.add, told]
      rfl
    have nextKnown : ∀ other found, next.known.find? other = some found → found = meant other := by
      intro other found there
      rw [NameMap.find?_insertNew] at there
      rcases Option.or_eq_some_iff.mp there with old | ⟨-, new⟩
      · exact known other found old
      · obtain ⟨rfl, same⟩ := Option.ite_none_right_eq_some.mp new
        exact (Option.some.inj same).symm
    obtain ⟨after, ends, afterKnown, all, references, same, clauses, columns⟩ :=
      ih (fun other member => means other (List.mem_cons_of_mem _ member)) next nextKnown
    refine ⟨after, ?_, afterKnown, fun other either => all other ?_, reference :: references, ?_, ?_, ?_⟩
    · rw [List.map_cons, List.foldlM_cons, step]
      exact ends
    · rw [NameMap.find?_insertNew, Option.isSome_or]
      rcases either with old | here
      · exact .inl (by simp [old])
      · rcases List.mem_cons.mp here with rfl | later
        · exact .inl (by simp)
        · exact .inr later
    · rw [same, List.append_assoc]
      rfl
    · intro other member
      rcases List.mem_cons.mp member with rfl | later
      · exact ⟨_, _, _, rfl⟩
      · exact clauses other later
    · rw [List.flatMap_cons, columns]
      rfl

end Columns

section Statement

variable {tokens : TokenSequence} {clause : WithClause} {analyze : String → Except Error Facts}
  {spelled : List (String × Section)} {meant : String → List String} (read : WithClause.ofTokens tokens = .ok clause)
include read

/-- The columns of a statement are those that its mentions mean, if its aliases stand for some of them. -/
theorem exists_facts (mentioned : Column.mentions tokens (Facts.declaredNames tokens clause)
      ((Facts.declarations tokens clause).map (·.position)) = spelled.map mentionOf)
    (means : ∀ name ∈ spelled.map (·.1), ∃ written,
      Column.meaning (Table.aliases tokens (Table.names tokens clause.names))
        (Bodies.ofStatement tokens clause (Subquery.bodies tokens) analyze) name = .ok (meant name, written))
    (Stands : NameMap AliasTarget → Prop)
    (targets : ∀ known : NameMap (List String), (∀ name ∈ spelled.map (·.1), known.find? name = some (meant name)) →
      ∃ aliases, AliasDeclaration.targets (Facts.declarations tokens clause) tokens
        ⟨known, Facts.declaredNames tokens clause⟩ (Bodies.ofStatement tokens clause (Subquery.bodies tokens) analyze) =
          .ok aliases ∧ Stands aliases)
    (stands : ∀ aliases, Stands aliases → ∀ label, aliases.contains label → ∀ name ∈ Alias.resolve aliases label,
      name ∈ (spelled.map (·.1)).flatMap meant) :
    ∃ facts, Facts.ofTokens tokens .select analyze = .ok facts ∧
      facts.columns = distinct ((spelled.map (·.1)).flatMap meant) ∧ Stands facts.aliases ∧
      facts.tables = Table.names tokens clause.names ∧ facts.withQueries = clause.bodies := by
  obtain ⟨scan, scanned, known, all, references, same, clauses, columns⟩ := scan_meant means {} nofun
  obtain rfl : scan.references = references := same.trans (List.nil_append _)
  obtain ⟨aliases, resolved, standing⟩ := targets scan.known fun name member => by
    obtain ⟨found, there⟩ := Option.isSome_iff_exists.mp (all name (.inr member))
    rw [there, known name found there]
  let start := Facts.unread tokens clause aliases
  let declared := (Facts.declarations tokens clause).foldl Facts.addDeclaration start
  let noted := Facts.read tokens clause aliases scan.references
  have keptStart : Keeps start declared := keeps_foldl keeps_addDeclaration _ _
  have kept : Keeps start noted := keptStart.trans (keeps_foldl keeps_addReference _ _)
  have empty : declared.columns = [] ∧ declared.columnsBySection = [] := by
    refine List.foldlRecOn
      (motive := fun facts : Facts => facts.columns = [] ∧ facts.columnsBySection = []) _ _ ⟨rfl, rfl⟩ ?_
    rintro facts ⟨noColumns, noSections⟩ declaration -
    unfold Facts.addDeclaration
    split <;> exact ⟨noColumns, noSections⟩
  obtain ⟨found, within⟩ := addReferences clauses declared (by rw [empty.2]; nofun)
  have whole : noted.columns = distinct ((spelled.map (·.1)).flatMap meant) := by
    rw [← columns, distinct, ← empty.1]
    exact found
  obtain ⟨final, keptLast⟩ :=
    columns_completed (show ∀ name ∈ noted.columnsBySection.names, name ∈ noted.columns from within)
      fun label labelled name member => by
    rw [kept.aliases] at labelled member
    rw [whole]
    exact mem_distinct.mpr (stands aliases standing label labelled name member)
  have keeps := kept.trans keptLast
  refine ⟨Facts.completed noted, Facts.ofTokens_ok_iff.mpr ⟨rfl, clause, scan, aliases, read, ?_, resolved, rfl⟩,
    final.trans whole, ?_, keeps.tables, keeps.withQueries⟩
  · rw [Column.scan, mentioned]
    exact scanned
  · rw [keeps.aliases]
    exact standing

/-- Without aliases nothing else is needed. -/
theorem exists_facts_bare (undeclared : Facts.declarations tokens clause = [])
    (mentioned : Column.mentions tokens [] [] = spelled.map mentionOf)
    (means : ∀ name ∈ spelled.map (·.1), ∃ written,
      Column.meaning (Table.aliases tokens (Table.names tokens clause.names))
        (Bodies.ofStatement tokens clause (Subquery.bodies tokens) analyze) name = .ok (meant name, written)) :
    ∃ facts, Facts.ofTokens tokens .select analyze = .ok facts ∧
      facts.columns = distinct ((spelled.map (·.1)).flatMap meant) ∧ facts.aliases = {} ∧
      facts.tables = Table.names tokens clause.names ∧ facts.withQueries = clause.bodies := by
  refine exists_facts read ?_ means (· = {}) (fun known _ => ⟨{}, ?_, rfl⟩) ?_
  · rw [Facts.declaredNames_eq_nil undeclared, undeclared]
    exact mentioned
  · rw [undeclared]
    rfl
  · rintro _ rfl label labelled
    cases labelled

/-- An error in the first mention is one of the statement. -/
theorem ofTokens_error (undeclared : Facts.declarations tokens clause = []) {first : String × Section}
    {rest : List (String × Section)}
    (mentioned : Column.mentions tokens [] [] = (first :: rest).map mentionOf) {error : Error}
    (fails : Column.meaning (Table.aliases tokens (Table.names tokens clause.names))
      (Bodies.ofStatement tokens clause (Subquery.bodies tokens) analyze) first.1 = .error error) :
    Facts.ofTokens tokens .select analyze = .error error := by
  have scanned : Column.scan tokens .select (Table.aliases tokens (Table.names tokens clause.names))
      (Facts.declaredNames tokens clause) ((Facts.declarations tokens clause).map (·.position))
      (Bodies.ofStatement tokens clause (Subquery.bodies tokens) analyze) = .error error := by
    rw [Facts.declaredNames_eq_nil undeclared, undeclared, Column.scan, List.map_nil, mentioned, List.map_cons]
    simp [List.foldlM_cons, mentionOf, Column.Scan.add, fails, bind, Except.bind, Except.map]
  simp only [Facts.declaredNames, Facts.declarations] at scanned
  unfold Facts.ofTokens
  simp only [bind, Except.bind, read, scanned]
  rfl

end Statement

section Bodies

variable {tokens : TokenSequence} {clause : WithClause} {subqueries : NameMap String}
  {analyze : String → Except Error Facts}

/-- The text behind the name of a body. -/
def bodyText (clause : WithClause) (subqueries : NameMap String) (name : String) : Option String :=
  (subqueries.find? name).or (clause.bodies.find? name)

theorem find?_ofStatement (name : String) : (Bodies.ofStatement tokens clause subqueries analyze).facts.find? name =
    (bodyText clause subqueries name).map fun text => Thunk.mk fun _ => analyze text := by
  rw [Bodies.ofStatement, NameMap.find?_ofFirstPairs_map _ fun body => Thunk.mk fun _ =>
    analyze body, List.lookup_append]
  rfl

variable {name text : String} {facts : Facts} (body : bodyText clause subqueries name = some text)
include body

theorem contains_ofStatement : (Bodies.ofStatement tokens clause subqueries analyze).contains name = true := by
  rw [Bodies.contains, NameMap.contains, find?_ofStatement, body]
  rfl

theorem facts?_ofStatement (analyzed : analyze text = .ok facts) :
    (Bodies.ofStatement tokens clause subqueries analyze).facts? name = .ok (some facts) := by
  simp only [Bodies.facts?, find?_ofStatement, body, Option.map_some, Thunk.get, analyzed]

theorem facts?_exceeded {depth limit : Nat} (refused : analyze text = .error (.recursionLimit depth limit)) :
    (Bodies.ofStatement tokens clause subqueries analyze).facts? name = .error (.recursionLimit depth limit) := by
  simp only [Bodies.facts?, find?_ofStatement, body, Option.map_some, Thunk.get, refused]

end Bodies

section Resolution

variable {bodies : Bodies} {name column found : String} {facts : Facts}

/-- A column of a body that the body has under its own name, and that names no body. -/
theorem lookUp_column (known : bodies.facts? name = .ok (some facts)) (noStar : column ≠ "*")
    (aliases : facts.aliases = {})
    (columns : facts.columns = [found]) (last : lastPart found = column) : bodies.lookUp name column = .ok [found] := by
  have noAlias : facts.aliases.contains column = false := by rw [aliases]; rfl
  rw [Bodies.lookUp, known]
  refine congrArg Except.ok ?_
  simp [Bodies.columnOf, noStar, noAlias, columns, last]

theorem meaning_bare {tableAliases : NameMap String} (bare : '.' ∉ name.toList) :
    Column.meaning tableAliases bodies name = .ok ([name], name) := by
  simp [Column.meaning, splitQualified?, splitAtLastDot_eq_none bare]

theorem meaning_unknown {tableAliases : NameMap String} (bare : '.' ∉ column.toList)
    (noAlias : tableAliases.find? name = none) (unknown : bodies.contains name = false) :
    Column.meaning tableAliases bodies (qualify name column) = .ok ([qualify name column], qualify name column) := by
  simp [Column.meaning, splitQualified?_qualify bare, noAlias, unknown]

theorem meaning_qualified {tableAliases : NameMap String} (bare : '.' ∉ column.toList)
    (noAlias : tableAliases.find? name = none) (known : bodies.contains name = true) :
    Column.meaning tableAliases bodies (qualify name column) =
      (bodies.resolve name column).map (·, qualify name column) := by
  simp [Column.meaning, splitQualified?_qualify bare, noAlias, known]

end Resolution

end Proofs.MeantColumns

end QueryFacts

import QueryFacts.Analysis

/-! How the parts of the facts of a statement fit together. A name never stands for
nothing, neither as an alias nor as a column of a body, so no clause is left without
columns; the facts of a body have to be coherent for this before those of the statement. -/

namespace QueryFacts

namespace NameGraph

variable {ε : Type} {graph : NameGraph ε}

/-- No name stands for nothing. -/
def Filled (graph : NameGraph ε) : Prop := ∀ name found, graph.successors name = some (.ok found) → found ≠ []

theorem walk_ne_nil (filled : graph.Filled) {start pending opened out reached : List String}
    {inside : ∀ name ∈ pending, (graph.successors name).isSome → name ∈ start ++ graph.inner ()}
    (ends : graph.walk start pending opened out inside = .ok reached) (more : pending ≠ [] ∨ out ≠ []) :
    reached ≠ [] := by
  have added (out : List String) (name : String) : addNew out name ≠ [] :=
    List.ne_nil_of_mem (mem_addNew.2 (.inr rfl))
  fun_induction walk graph start pending opened out inside with
  | case1 => simp_all
  | case2 opened out name rest _ _ _ _ ih => exact ih ends (.inr (added out name))
  | case3 opened out name rest _ _ _ _ _ _ ih => exact ih ends (.inr (added out name))
  | case4 => cases ends
  | case5 opened out name rest _ _ _ found opening _ _ ih =>
    exact ih ends (.inl (List.append_ne_nil_of_left_ne_nil (filled name found opening) rest))

theorem leaves_ne_nil (filled : graph.Filled) {start opened reached : List String} (more : start ≠ [])
    (ends : graph.leaves start opened = .ok reached) : reached ≠ [] := walk_ne_nil filled ends (.inl more)

end NameGraph

theorem Alias.resolve_ne_nil {aliases : NameMap AliasTarget}
    (named : ∀ label target, aliases.find? label = some target → target.names ≠ []) (name : String) :
    Alias.resolve aliases name ≠ [] := by
  have filled : (Alias.graph aliases).Filled := by
    intro label found opening
    obtain ⟨target, known, same⟩ := Option.map_eq_some_iff.1 opening
    cases same
    exact named label target known
  unfold Alias.resolve
  split
  next names ends => exact NameGraph.leaves_ne_nil filled (by simp) ends
  next never _ => exact nomatch never

namespace Bodies

theorem columnOf_ne_nil {facts : Facts}
    (named : ∀ name target, (name, target) ∈ facts.aliases.entries → target.names ≠ [])
    (position : Option Nat) (literal column : String) : columnOf facts position literal column ≠ [] := by
  unfold columnOf
  split
  · split <;> simp_all
  · split
    · exact Alias.resolve_ne_nil
        (fun label target found => named label target (NameMap.mem_entries_of_find? found)) column
    · split
      · simp
      · split
        · simp
        · split <;> simp

/-- Every alias of a body stands for something. -/
def Filled (bodies : Bodies) : Prop := ∀ name body facts, (name, body) ∈ bodies.facts.entries → body.get = .ok facts →
  ∀ label target, (label, target) ∈ facts.aliases.entries → target.names ≠ []

variable {bodies : Bodies}

theorem lookUp_ne_nil (filled : bodies.Filled) {name column : String} {found : List String}
    (known : bodies.lookUp name column = .ok found) : found ≠ [] := by
  unfold lookUp facts? at known
  split at known
  · cases known; simp
  next body there =>
    split at known
    next facts ends =>
      cases known
      exact columnOf_ne_nil (filled name body facts (NameMap.mem_entries_of_find? there) ends) _ _ _
    · cases known
    · cases known; simp

theorem resolve_ne_nil (filled : bodies.Filled) {name column : String} {columns : List String}
    (resolved : bodies.resolve name column = .ok columns) : columns ≠ [] := by
  have all : bodies.graph.Filled := by
    intro dotted found opening
    obtain ⟨⟨qualifier, column⟩, -, known⟩ := Option.bind_eq_some_iff.1 opening
    simp only [Option.ite_none_right_eq_some, Option.some.injEq] at known
    exact lookUp_ne_nil filled known.2
  unfold resolve at resolved
  split at resolved
  · cases resolved
  next found known => exact NameGraph.leaves_ne_nil all (lookUp_ne_nil filled known) resolved

end Bodies

theorem ok_of_toOption {α ε : Type} {result : Except ε α} {value : α} (found : result.toOption = some value) :
    result = .ok value := by
  cases result with
  | error error => cases found
  | ok other => exact congrArg Except.ok (Option.some.inj found)

/-- What a run of fallible steps preserves. -/
theorem foldlM_preserves {α β ε : Type} (holds : β → Prop) {step : β → α → Except ε β}
    {items : List α} {start final : β}
    (run : items.foldlM step start = .ok final) (first : holds start)
    (preserved : ∀ before item after, item ∈ items → holds before → step before item = .ok after → holds after) :
    holds final := by
  induction items generalizing start with
  | nil => cases run; exact first
  | cons item items ih =>
    rw [List.foldlM_cons] at run
    cases stepped : step start item with
    | error error => rw [stepped] at run; cases run
    | ok next =>
      rw [stepped] at run
      refine ih run (preserved start item next List.mem_cons_self first stepped) ?_
      exact fun before later after member => preserved before later after (List.mem_cons_of_mem _ member)

namespace WithClause

variable {clause after : WithClause}

theorem nodup_names_readBody {name : String} {opening : Cursor} {next : Option Cursor}
    (read : readBody clause name opening = .ok (after, next)) (once : clause.names.Nodup) : after.names.Nodup := by
  unfold readBody at read
  split at read
  · cases read
  · split at read
    · simp only at read
      split at read
      · cases read; exact NameMap.nodup_keys_insertNew once
      · split at read
        · cases read
        · cases read; exact NameMap.nodup_keys_insertNew once
    · cases read

theorem nodup_names_readQuery {start : Cursor} {next : Option Cursor}
    (read : readQuery clause start = .ok (after, next)) (once : clause.names.Nodup) : after.names.Nodup := by
  unfold readQuery at read
  split at read
  · cases read
  · simp only at read
    split at read <;> split at read
    · exact nodup_names_readBody read once
    · cases read
    · exact nodup_names_readBody read once
    · cases read

theorem nodup_names_readQueries {count : Nat} {start : Cursor} (read : readQueries clause count start = .ok after)
    (once : clause.names.Nodup) : after.names.Nodup := by
  induction count generalizing clause start with
  | zero => cases read; exact once
  | succ count ih =>
    unfold readQueries at read
    split at read
    · cases read
    next middle one => cases read; exact nodup_names_readQuery one once
    next middle next one => exact ih read (nodup_names_readQuery one once)

theorem nodup_names_ofTokens {tokens : TokenSequence} (read : ofTokens tokens = .ok clause) : clause.names.Nodup :=
  foldlM_preserves (fun clause => clause.names.Nodup) read List.nodup_nil
    fun _ _ _ _ once one => nodup_names_readQueries one once

end WithClause

namespace AliasDeclaration

theorem names_of_target? {name : String} {columns : List String} {target : AliasTarget}
    (known : target? name columns = some target) : target.names = columns ∧ columns ≠ [] ∧ columns ≠ [name] := by
  unfold target? at known
  split at known
  · cases known
  · split at known
    · cases known
    · cases known; simp_all [AliasTarget.names]
  next several single =>
    cases known
    refine ⟨rfl, ?_, ?_⟩ <;> simp_all

/-- An alias of the statement stands for something else than just itself. -/
def Sound (aliasNames : List String) (aliases : NameMap AliasTarget) : Prop :=
  ∀ name target, (name, target) ∈ aliases.entries → name ∈ aliasNames ∧ target.names ≠ [] ∧ target.names ≠ [name]

theorem sound_addTarget {tokens : TokenSequence} {scope : Scope} {bodies : Bodies} {aliases after : NameMap AliasTarget}
    {declaration : AliasDeclaration} {aliasNames : List String} (sound : Sound aliasNames aliases)
    (declared : declaration.name ∈ aliasNames) (added : addTarget tokens scope bodies aliases declaration = .ok after) :
    Sound aliasNames after := by
  unfold addTarget at added
  split at added
  · cases added; exact sound
  · cases found : declaration.columns tokens scope bodies with
    | error error => rw [found] at added; cases added
    | ok columns =>
      rw [found] at added
      simp only [Except.map, Except.ok.injEq] at added
      subst added
      split
      next target known =>
        obtain ⟨same, more, other⟩ := names_of_target? known
        intro name value member
        rcases NameMap.mem_entries_insertNew member with old | new
        · exact sound name value old
        · cases new
          exact ⟨declared, same ▸ more, same ▸ other⟩
      next => exact sound

theorem sound_targets {declarations : List AliasDeclaration} {tokens : TokenSequence} {scope : Scope} {bodies : Bodies}
    {aliases : NameMap AliasTarget} (read : targets declarations tokens scope bodies = .ok aliases)
    {aliasNames : List String} (declared : ∀ declaration ∈ declarations, declaration.name ∈ aliasNames) :
    Sound aliasNames aliases :=
  foldlM_preserves (Sound aliasNames) read (fun _ _ member => absurd member List.not_mem_nil)
    fun _ declaration _ member sound added => sound_addTarget sound (declared declaration member) added

end AliasDeclaration

namespace Column

/-- A reference is to some column, or to an alias of the statement. Only a table definition
declares columns outside the clauses. -/
def Reference.Sound (kind : StatementKind) (aliasNames : List String) : Reference → Prop
  | .column columns _ sec => columns ≠ [] ∧ (kind ≠ .create → sec.isSome)
  | .aliasName name _ => name ∈ aliasNames

theorem meaning_ne_nil {tableAliases : NameMap String} {bodies : Bodies} (filled : bodies.Filled)
    {spelled written : String}
    {columns : List String} (known : meaning tableAliases bodies spelled = .ok (columns, written)) : columns ≠ [] := by
  unfold meaning at known
  split at known
  · cases known; simp
  · split at known
    · cases known; simp
    · split at known
      next qualifier column _ _ _ _ =>
        cases resolved : bodies.resolve qualifier column with
        | error error => rw [resolved] at known; cases known
        | ok found =>
          rw [resolved] at known
          cases known
          exact Bodies.resolve_ne_nil filled resolved
      · cases known; simp

theorem mem_aliasNames_of_mention {tokens : TokenSequence} {aliasNames : List String}
    {declared : List Nat} {name : String}
    {sec : Section} (mentioned : .aliasName name sec ∈ mentions tokens aliasNames declared) : name ∈ aliasNames := by
  obtain ⟨cursor, -, here⟩ := List.mem_filterMap.1 mentioned
  unfold mention? at here
  split at here
  · split at here <;> cases here
  · split at here
    · cases here
    · obtain ⟨clause, -, same⟩ := Option.map_eq_some_iff.1 here
      simp only at same
      split at same
      next bare =>
        cases same
        simp_all
      · cases same

theorem sound_references {tokens : TokenSequence} {kind : StatementKind} {tableAliases : NameMap String}
    {aliasNames : List String} {declared : List Nat} {bodies : Bodies} {result : Scan} (filled : bodies.Filled)
    (scanned : scan tokens kind tableAliases aliasNames declared bodies = .ok result) :
    ∀ reference ∈ result.references, reference.Sound kind aliasNames := by
  unfold scan at scanned
  split at scanned
  next create =>
    cases scanned
    intro reference member
    obtain ⟨opening, -, inside⟩ := List.mem_flatMap.1 member
    obtain ⟨start, -, rfl⟩ := List.mem_map.1 inside
    exact ⟨by simp, fun other => absurd create other⟩
  next =>
    refine foldlM_preserves
      (fun scan => ∀ reference ∈ scan.references, reference.Sound kind aliasNames) scanned (by simp) ?_
    intro before mention after mentioned sound added reference member
    cases mention with
    | aliasName name sec =>
      cases added
      rcases List.mem_append.1 member with old | new
      · exact sound reference old
      · obtain rfl := List.mem_singleton.1 new
        exact mem_aliasNames_of_mention mentioned
    | column spelled sec =>
      cases known : meaning tableAliases bodies spelled with
      | error error => rw [Scan.add, known] at added; cases added
      | ok pair =>
        rw [Scan.add, known] at added
        cases added
        rcases List.mem_append.1 member with old | new
        · exact sound reference old
        · obtain rfl := List.mem_singleton.1 new
          exact ⟨meaning_ne_nil filled known, fun _ => rfl⟩

end Column

namespace Facts

/-- What holds while the facts of a statement are put together. -/
structure Consistent (kind : StatementKind) (facts : Facts) : Prop where
  tables : facts.tables.Nodup
  columns : facts.columns.Nodup
  writtenColumns : facts.writtenColumns.Nodup
  aliasNames : facts.aliasNames.Nodup
  /-- The bodies come in the order of their names, one for each. -/
  withQueries : facts.withQueries.entries.map (·.1) = facts.withQueries.keys ∧ facts.withQueries.keys.Nodup
  subqueries : facts.subqueries.entries.map (·.1) = facts.subqueries.keys ∧ facts.subqueries.keys.Nodup
  columnsBySection : facts.columnsBySection.Proper
  aliasesBySection : facts.aliasesBySection.Proper
  /-- Every column stands in a clause. -/
  placed : kind ≠ .create → ∀ column ∈ facts.columns, column ∈ facts.columnsBySection.names
  noWithTable : ∀ table ∈ facts.tables, table ∉ facts.withQueries.keys
  aliasedTable : ∀ name table, (name, table) ∈ facts.tableAliases.entries → table ∈ facts.tables
  aliases : AliasDeclaration.Sound facts.aliasNames facts.aliases
  declared : ∀ name ∈ facts.aliasesBySection.names, name ∈ facts.aliasNames

/-- What holds between the facts of every statement. -/
structure Coherent (kind : StatementKind) (facts : Facts) : Prop extends Consistent kind facts where
  /-- The columns of the clauses are columns of the statement. -/
  listed : ∀ column ∈ facts.columnsBySection.names, column ∈ facts.columns

namespace Consistent

variable {kind : StatementKind} {facts : Facts}

theorem addDeclaration (consistent : facts.Consistent kind) {declaration : AliasDeclaration}
    (declared : declaration.name ∈ facts.aliasNames) : (facts.addDeclaration declaration).Consistent kind := by
  unfold Facts.addDeclaration
  split
  next sec _ =>
    refine { consistent with
      aliasesBySection := consistent.aliasesBySection.add (by simp)
      declared := fun name member => ?_ }
    rcases SectionMap.mem_names_add.1 member with old | new
    · exact consistent.declared name old
    · exact List.mem_singleton.1 new ▸ declared
  next => exact consistent

theorem addReference (consistent : facts.Consistent kind) {reference : Column.Reference}
    (sound : reference.Sound kind facts.aliasNames) : (facts.addReference reference).Consistent kind := by
  cases reference with
  | column columns written sec =>
    obtain ⟨more, inClause⟩ := sound
    cases sec with
    | none => exact { consistent with
        columns := nodup_addAllNew consistent.columns
        writtenColumns := nodup_addNew consistent.writtenColumns
        placed := fun other => absurd (inClause other) (by simp) }
    | some sec => exact { consistent with
        columns := nodup_addAllNew consistent.columns
        writtenColumns := nodup_addNew consistent.writtenColumns
        columnsBySection := consistent.columnsBySection.add more
        placed := fun other column member => SectionMap.mem_names_add.2
          ((mem_addAllNew.1 member).imp (consistent.placed other column) id) }
  | aliasName name sec =>
    simp only [Facts.addReference]
    split
    next => exact { consistent with
        aliasesBySection := consistent.aliasesBySection.add (by simp)
        declared := fun other member => (SectionMap.mem_names_add.1 member).elim (consistent.declared other)
          fun new => List.mem_singleton.1 new ▸ sound }
    next => exact { consistent with
        columns := nodup_addNew consistent.columns
        writtenColumns := nodup_addNew consistent.writtenColumns
        columnsBySection := consistent.columnsBySection.add (by simp)
        placed := fun other column member => SectionMap.mem_names_add.2
          ((mem_addNew.1 member).imp (consistent.placed other column) List.mem_singleton.2) }

theorem addAliasColumns (consistent : facts.Consistent kind) (use : Section × List String) :
    (facts.addAliasColumns use).Consistent kind := by
  have named : ∀ label target, facts.aliases.find? label = some target → target.names ≠ [] :=
    fun label target found => (consistent.aliases label target (NameMap.mem_entries_of_find? found)).2.1
  have filled : ∀ columns ∈ (use.2.filter facts.aliases.contains).map (Alias.resolve facts.aliases), columns ≠ [] := by
    intro columns member
    obtain ⟨name, -, rfl⟩ := List.mem_map.1 member
    exact Alias.resolve_ne_nil named name
  have grown : (facts.addAliasColumns use).columnsBySection.Proper ∧
      ∀ column ∈ facts.columnsBySection.names, column ∈ (facts.addAliasColumns use).columnsBySection.names := by
    refine List.foldlRecOn (motive := fun map : SectionMap =>
      map.Proper ∧ ∀ column ∈ facts.columnsBySection.names, column ∈ map.names) _ _ ?_ ?_
    · exact ⟨consistent.columnsBySection, fun _ member => member⟩
    · rintro map ⟨proper, larger⟩ columns member
      exact ⟨proper.add (filled columns member), fun _ old => SectionMap.mem_names_add.2 (.inl (larger _ old))⟩
  exact { consistent with
    columnsBySection := grown.1
    placed := fun other column member => grown.2 column (consistent.placed other column member) }

theorem completeColumns (consistent : facts.Consistent kind) : facts.completeColumns.Coherent kind :=
  { consistent with
    columns := nodup_addAllNew consistent.columns
    placed := fun other column member => (mem_addAllNew.1 member).elim (consistent.placed other column) id
    listed := fun _ member => mem_addAllNew.2 (.inr member) }

end Consistent

theorem aliasNames_addDeclaration (facts : Facts) (declaration : AliasDeclaration) :
    (facts.addDeclaration declaration).aliasNames = facts.aliasNames := by
  unfold addDeclaration
  split <;> rfl

theorem aliasNames_addReference (facts : Facts) (reference : Column.Reference) :
    (facts.addReference reference).aliasNames = facts.aliasNames := by
  cases reference with
  | column => rfl
  | aliasName name sec =>
    simp only [addReference]
    split <;> rfl

theorem filled_bodies {tokens : TokenSequence} {clause : WithClause} {subqueries : NameMap String}
    {analyze : String → Except Error Facts}
    (named : ∀ text facts, analyze text = .ok facts →
      ∀ label target, (label, target) ∈ facts.aliases.entries → target.names ≠ []) :
    (Bodies.ofStatement tokens clause subqueries analyze).Filled := by
  intro name body facts member ends
  obtain ⟨⟨key, text⟩, -, same⟩ := List.mem_map.1 (NameMap.mem_entries_ofFirstPairs member)
  cases same
  exact named text facts ends

section Assembly

variable (tokens : TokenSequence) (clause : WithClause)

def declarations : List AliasDeclaration :=
  AliasDeclaration.ofTokens tokens clause (clause.names ++ (Subquery.bodies tokens).keys)

def declaredNames : List String := distinct ((declarations tokens clause).map (·.name))

/-- The facts before any mention of a column is noted. -/
def unread (aliases : NameMap AliasTarget) : Facts where
  tables := Table.names tokens clause.names
  tableAliases := Table.aliases tokens (Table.names tokens clause.names)
  aliasNames := declaredNames tokens clause
  aliases := aliases
  withQueries := clause.bodies
  subqueries := Subquery.bodies tokens

def read (aliases : NameMap AliasTarget) (references : List Column.Reference) : Facts :=
  references.foldl addReference ((declarations tokens clause).foldl addDeclaration (unread tokens clause aliases))

def completed (facts : Facts) : Facts := (facts.aliasesBySection.foldl addAliasColumns facts).completeColumns

variable {tokens clause}

theorem declaredNames_eq_nil (undeclared : declarations tokens clause = []) : declaredNames tokens clause = [] := by
  rw [declaredNames, undeclared]
  rfl

theorem ofTokens_ok_iff {kind : StatementKind} {analyze : String → Except Error Facts} {facts : Facts} :
    ofTokens tokens kind analyze = .ok facts ↔
      (kind == .create && definesTableByQuery tokens) = false ∧ ∃ clause scan aliases,
        WithClause.ofTokens tokens = .ok clause ∧
        Column.scan tokens kind (Table.aliases tokens (Table.names tokens clause.names)) (declaredNames tokens clause)
          ((declarations tokens clause).map (·.position))
          (Bodies.ofStatement tokens clause (Subquery.bodies tokens) analyze) = .ok scan ∧
        AliasDeclaration.targets (declarations tokens clause) tokens ⟨scan.known, declaredNames tokens clause⟩
          (Bodies.ofStatement tokens clause (Subquery.bodies tokens) analyze) = .ok aliases ∧
        facts = completed (read tokens clause aliases scan.references) := by
  constructor
  · intro analyzed
    unfold ofTokens at analyzed
    simp only [bind, Except.bind] at analyzed
    split at analyzed
    · cases analyzed
    next plain =>
      split at analyzed
      · cases analyzed
      next clause one =>
        split at analyzed
        · cases analyzed
        next scan two =>
          split at analyzed
          · cases analyzed
          next aliases three =>
            cases analyzed
            exact ⟨Bool.eq_false_iff.2 plain, clause, scan, aliases, one, two, three, rfl⟩
  · rintro ⟨plain, clause, scan, aliases, one, two, three, rfl⟩
    unfold ofTokens
    simp only [bind, Except.bind, plain, one]
    simp only [declarations, declaredNames] at two three
    simp only [two, three]
    rfl

theorem consistent_unread {kind : StatementKind} {aliases : NameMap AliasTarget}
    (clauseRead : WithClause.ofTokens tokens = .ok clause)
    (sound : AliasDeclaration.Sound (declaredNames tokens clause) aliases) :
    (unread tokens clause aliases).Consistent kind where
  tables := (nodup_distinct _).filter _
  columns := List.nodup_nil
  writtenColumns := List.nodup_nil
  aliasNames := nodup_distinct _
  withQueries := ⟨rfl, WithClause.nodup_names_ofTokens clauseRead⟩
  subqueries := ⟨rfl, NameMap.nodup_keys_ofFirstPairs _⟩
  columnsBySection := .empty
  aliasesBySection := .empty
  placed _ _ member := absurd member List.not_mem_nil
  noWithTable table member := by simpa [unread, WithClause.names] using (List.mem_filter.1 member).2
  aliasedTable name table member := by
    obtain ⟨cursor, -, given⟩ := List.mem_filterMap.1 (NameMap.mem_entries_ofPairs member)
    unfold Table.alias? at given
    simp only [Option.ite_none_left_eq_some, Option.ite_none_right_eq_some, Option.some.injEq, Prod.mk.injEq] at given
    obtain ⟨-, -, known, -, rfl⟩ := given
    exact List.contains_iff_mem.1 known
  aliases := sound
  declared name member := absurd member List.not_mem_nil

theorem consistent_read {kind : StatementKind} {aliases : NameMap AliasTarget} {references : List Column.Reference}
    (consistent : (unread tokens clause aliases).Consistent kind)
    (sound : ∀ reference ∈ references, reference.Sound kind (declaredNames tokens clause)) :
    (read tokens clause aliases references).Consistent kind := by
  let Holds (facts : Facts) := facts.Consistent kind ∧ facts.aliasNames = declaredNames tokens clause
  have declared : Holds ((declarations tokens clause).foldl addDeclaration (unread tokens clause aliases)) := by
    refine List.foldlRecOn (motive := Holds) _ _ ⟨consistent, rfl⟩ ?_
    rintro facts ⟨consistent, same⟩ declaration member
    refine ⟨consistent.addDeclaration ?_, (aliasNames_addDeclaration facts declaration).trans same⟩
    rw [same]
    exact mem_distinct.2 (List.mem_map_of_mem member)
  refine (List.foldlRecOn (motive := Holds) references _ declared ?_).1
  rintro facts ⟨consistent, same⟩ reference member
  exact ⟨consistent.addReference (same ▸ sound reference member), (aliasNames_addReference facts reference).trans same⟩

theorem coherent_completed {kind : StatementKind} {facts : Facts} (consistent : facts.Consistent kind) :
    (completed facts).Coherent kind :=
  (List.foldlRecOn (motive := fun facts : Facts => facts.Consistent kind) _ _ consistent
    fun _ consistent use _ => consistent.addAliasColumns use).completeColumns

theorem coherent_ofTokens {kind : StatementKind} {analyze : String → Except Error Facts} {facts : Facts}
    (named : ∀ text facts, analyze text = .ok facts →
      ∀ label target, (label, target) ∈ facts.aliases.entries → target.names ≠ [])
    (analyzed : ofTokens tokens kind analyze = .ok facts) : facts.Coherent kind := by
  obtain ⟨-, clause, scan, aliases, clauseRead, scanned, resolved, rfl⟩ := ofTokens_ok_iff.1 analyzed
  have aliasesSound : AliasDeclaration.Sound (declaredNames tokens clause) aliases :=
    AliasDeclaration.sound_targets resolved fun declaration member => mem_distinct.2 (List.mem_map_of_mem member)
  exact coherent_completed (consistent_read (consistent_unread clauseRead aliasesSound)
    (Column.sound_references (filled_bodies named) scanned))

end Assembly

end Facts

namespace Proofs.CoherentFacts

theorem coherent_statementFacts {limits : Limits} {text : String}
    {analyze : String → Except Error Facts} {facts : Facts}
    (named : ∀ text facts, analyze text = .ok facts →
      ∀ label target, (label, target) ∈ facts.aliases.entries → target.names ≠ [])
    (analyzed : statementFacts limits text analyze = .ok facts) :
    ∃ tokens kind, queryTokens limits text = .ok tokens ∧ StatementKind.ofTokens tokens = .ok kind ∧
      facts.Coherent kind := by
  unfold statementFacts at analyzed
  cases lexed : queryTokens limits text with
  | error error => rw [lexed] at analyzed; cases analyzed
  | ok tokens =>
    rw [lexed] at analyzed
    cases known : StatementKind.ofTokens tokens with
    | error error => simp only [bind, Except.bind, known] at analyzed; cases analyzed
    | ok kind =>
      simp only [bind, Except.bind, known] at analyzed
      exact ⟨tokens, kind, rfl, known, Facts.coherent_ofTokens named analyzed⟩

/-- The facts of a statement are coherent, at whatever depth of bodies it stands. -/
theorem factsWithin_coherent {limits : Limits} {levels depth : Nat} {text : String} {facts : Facts}
    (analyzed : factsWithin limits levels depth text = .ok facts) :
    ∃ tokens kind, queryTokens limits text = .ok tokens ∧ StatementKind.ofTokens tokens = .ok kind ∧
      facts.Coherent kind := by
  induction levels generalizing depth text facts with
  | zero => exact coherent_statementFacts (fun text facts never => by cases never) analyzed
  | succ levels ih =>
    refine coherent_statementFacts (fun text facts inner label target member => ?_) analyzed
    obtain ⟨-, kind, -, -, coherent⟩ := ih inner
    exact (coherent.aliases label target member).2.1

theorem coherent_renamed_table : ∃ facts kind,
    factsWithin {} 1 0 "SELECT b, 1 AS x FROM u AS v WHERE v.b = 1" = .ok facts ∧
      (facts.tables, facts.columns, facts.aliasNames) = (["u"], ["b", "u.b"], ["x"]) ∧ facts.Coherent kind := by
  have known : ((factsWithin {} 1 0 "SELECT b, 1 AS x FROM u AS v WHERE v.b = 1").map fun facts =>
      (facts.tables, facts.columns, facts.aliasNames)).toOption = some (["u"], ["b", "u.b"], ["x"]) := by decide +kernel
  cases analyzed : factsWithin {} 1 0 "SELECT b, 1 AS x FROM u AS v WHERE v.b = 1" with
  | error error => rw [analyzed] at known; cases known
  | ok facts =>
    obtain ⟨-, kind, -, -, coherent⟩ := factsWithin_coherent analyzed
    exact ⟨facts, kind, rfl, by rw [analyzed] at known; exact Option.some.inj known, coherent⟩

end Proofs.CoherentFacts

end QueryFacts

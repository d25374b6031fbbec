import QueryFacts.Proofs.Sections
import QueryFacts.Proofs.Unnested

/-! The facts of statements without bodies and aliases of tables, in which every column means
itself. They are those that the mentions of columns add to the aliases that are declared. -/

namespace QueryFacts

namespace Column.Mention

/-- The reference of a mention that means what it spells. -/
def bare : Mention → Reference
  | .column spelled sec => .column [spelled] spelled (some sec)
  | .aliasName name sec => .aliasName name sec

def column? : Mention → Option String
  | .column spelled _ => some spelled
  | .aliasName _ _ => none

/-- The column of a mention. A name that turned out to be no alias is one. -/
def columnUse? (aliases : NameMap AliasTarget) : Mention → Option (String × Section)
  | .column spelled sec => some (spelled, sec)
  | .aliasName name sec => if aliases.contains name then none else some (name, sec)

def aliasUse? (aliases : NameMap AliasTarget) : Mention → Option (String × Section)
  | .column _ _ => none
  | .aliasName name sec => if aliases.contains name then some (name, sec) else none

end Column.Mention

/-- The tables and columns of a statement without aliases. -/
structure Facts.Lists (facts : Facts) (tables : List String) (uses : List (String × Section)) : Prop where
  tables : facts.tables = tables
  columns : facts.columns = distinct (uses.map (·.1))
  columnsBySection : facts.columnsBySection = SectionMap.ofNames (SectionMap.namesIn uses)
  aliasNames : facts.aliasNames = []
  aliases : facts.aliases = {}
  aliasesBySection : facts.aliasesBySection = []

namespace Proofs.BareFacts
open Lexeme Spots Unnested MeantColumns

/-- The names known to a scan after it has met some columns. -/
def Knows (known : NameMap (List String)) (names : List String) : Prop :=
  ∀ name, known.find? name = if name ∈ names then some [name] else none

section Scan

variable {tableAliases : NameMap String} {bodies : Bodies} {mentions : List Column.Mention}

/-- Columns that mean themselves are noted as they are spelled. -/
theorem scan_bare (means : ∀ name ∈ mentions.filterMap Column.Mention.column?,
      Column.meaning tableAliases bodies name = .ok ([name], name)) (scan : Column.Scan) {names : List String}
    (knows : Knows scan.known names) :
    ∃ known, mentions.foldlM (Column.Scan.add tableAliases bodies) scan =
      .ok ⟨scan.references ++ mentions.map Column.Mention.bare, known⟩ ∧
      Knows known (names ++ mentions.filterMap Column.Mention.column?) := by
  induction mentions generalizing scan names with
  | nil => exact ⟨scan.known, by simp [pure, Except.pure], by simpa using knows⟩
  | cons mention rest ih =>
    cases mention with
    | aliasName name sec =>
      let next : Column.Scan := ⟨scan.references ++ [.aliasName name sec], scan.known⟩
      obtain ⟨known, ends, after⟩ := ih means next knows
      refine ⟨known, ?_, after⟩
      rw [List.foldlM_cons, show Column.Scan.add tableAliases bodies scan (.aliasName name sec) = .ok next from rfl]
      refine Eq.trans ends ?_
      simp [next, Column.Mention.bare]
    | column spelled sec =>
      let next : Column.Scan :=
        ⟨scan.references ++ [.column [spelled] spelled (some sec)], scan.known.insertNew spelled [spelled]⟩
      have step : Column.Scan.add tableAliases bodies scan (.column spelled sec) = .ok next := by
        rw [Column.Scan.add, means spelled List.mem_cons_self]
        rfl
      have nextKnows : Knows next.known (names ++ [spelled]) := by
        intro name
        rw [NameMap.find?_insertNew, knows]
        by_cases old : name ∈ names
        · simp [old]
        · by_cases here : name = spelled
          · subst here
            simp [old]
          · simp [old, here]
      obtain ⟨known, ends, after⟩ := ih (fun name member => means name (List.mem_cons_of_mem _ member)) next nextKnows
      refine ⟨known, ?_, ?_⟩
      · rw [List.foldlM_cons, step]
        refine Eq.trans ends ?_
        simp [next, Column.Mention.bare]
      · rw [List.append_assoc] at after
        exact after

end Scan

section Read

/-- What mentions that mean what they spell add to facts. -/
structure Adds (facts after : Facts) (mentions : List Column.Mention) : Prop where
  columns :
      after.columns = addAllNew facts.columns ((mentions.filterMap (Column.Mention.columnUse? facts.aliases)).map (·.1))
  columnsBySection : after.columnsBySection =
    facts.columnsBySection.addUses (mentions.filterMap (Column.Mention.columnUse? facts.aliases))
  aliasesBySection : after.aliasesBySection =
    facts.aliasesBySection.addUses (mentions.filterMap (Column.Mention.aliasUse? facts.aliases))
  aliasNames : after.aliasNames = facts.aliasNames
  aliases : after.aliases = facts.aliases
  tables : after.tables = facts.tables

theorem adds_bare (mentions : List Column.Mention) (facts : Facts) :
    Adds facts ((mentions.map Column.Mention.bare).foldl Facts.addReference facts) mentions := by
  induction mentions generalizing facts with
  | nil => exact ⟨rfl, rfl, rfl, rfl, rfl, rfl⟩
  | cons mention rest ih =>
    obtain ⟨columns, bySection, uses, names, aliases, tables⟩ := ih (facts.addReference mention.bare)
    rw [List.map_cons, List.foldl_cons]
    cases mention with
    | column spelled sec => exact ⟨columns, bySection, uses, names, aliases, tables⟩
    | aliasName name sec =>
      have same : (facts.addReference (Column.Mention.aliasName name sec).bare).aliases = facts.aliases :=
        (keeps_addReference facts _).aliases
      rw [same] at columns bySection uses aliases
      cases known : facts.aliases.contains name with
      | true =>
        have step : facts.addReference (Column.Mention.aliasName name sec).bare =
            { facts with aliasesBySection := SectionMap.add sec [name] facts.aliasesBySection } := if_pos known
        rw [step] at columns bySection uses names tables ⊢
        rw [step] at aliases
        have noColumn : (Column.Mention.aliasName name sec).columnUse? facts.aliases = none := if_pos known
        have use : (Column.Mention.aliasName name sec).aliasUse? facts.aliases = some (name, sec) := if_pos known
        exact ⟨by rw [List.filterMap_cons_none noColumn]; exact columns,
          by rw [List.filterMap_cons_none noColumn]; exact bySection, by rw [List.filterMap_cons_some use]; exact uses,
          names, aliases, tables⟩
      | false =>
        have step : facts.addReference (Column.Mention.aliasName name sec).bare =
            { facts with
              columnsBySection := SectionMap.add sec [name] facts.columnsBySection
              columns := addNew facts.columns name
              writtenColumns := addNew facts.writtenColumns name } := if_neg (by simp [known])
        rw [step] at columns bySection uses names tables ⊢
        rw [step] at aliases
        have column : (Column.Mention.aliasName name sec).columnUse? facts.aliases = some (name, sec) :=
          if_neg (by simp [known])
        have noUse : (Column.Mention.aliasName name sec).aliasUse? facts.aliases = none := if_neg (by simp [known])
        exact ⟨by rw [List.filterMap_cons_some column]; exact columns,
          by rw [List.filterMap_cons_some column]; exact bySection, by rw [List.filterMap_cons_none noUse]; exact uses,
          names, aliases, tables⟩

end Read

section Completed

variable {facts : Facts} {sec : Section}

/-- At the end a clause has what its aliases stand for, and all its names are columns. -/
theorem listed_completed (ordered : facts.columnsBySection.Ordered) (uses : facts.aliasesBySection.Ordered) :
    (Facts.completed facts).columnsBySection.listed sec = addAllNew (facts.columnsBySection.listed sec)
      (((facts.aliasesBySection.listed sec).filter facts.aliases.contains).flatMap (Alias.resolve facts.aliases)) := by
  have general (uses : SectionMap) (sorted : uses.Ordered) (after : Facts) (same : after.aliases = facts.aliases)
      (ordered : after.columnsBySection.Ordered) :
      (uses.foldl Facts.addAliasColumns after).columnsBySection.listed sec =
        addAllNew (after.columnsBySection.listed sec)
          (((uses.listed sec).filter facts.aliases.contains).flatMap (Alias.resolve facts.aliases)) := by
    induction uses generalizing after with
    | nil => rfl
    | cons use uses ih =>
      obtain ⟨below, sorted⟩ := List.pairwise_cons.mp sorted
      obtain ⟨ordered', added⟩ := @SectionMap.listed_addLists after.columnsBySection sec use.1 ordered
        ((use.2.filter facts.aliases.contains).map (Alias.resolve facts.aliases))
      have step : (after.addAliasColumns use).columnsBySection = ((use.2.filter facts.aliases.contains).map
          (Alias.resolve facts.aliases)).foldl (fun map names => map.add use.1 names) after.columnsBySection := by
        rw [Facts.addAliasColumns, same]
      rw [← step] at ordered' added
      rw [List.foldl_cons, ih sorted (after.addAliasColumns use) same ordered', added,
        SectionMap.listed_cons, ← List.flatMap_def]
      by_cases here : sec = use.1
      · have nothing : SectionMap.listed uses sec = [] := by
          have absent : SectionMap.find? uses sec = none := SectionMap.find?_eq_none fun later member equal => by
            have earlier := below later member
            rw [equal, here] at earlier
            exact Nat.lt_irrefl _ earlier
          rw [SectionMap.listed, absent]
          rfl
        rw [if_pos here, if_pos here, nothing]
        rfl
      · rw [if_neg here, if_neg here]
  exact general facts.aliasesBySection uses facts rfl ordered

/-- The declarations are noted as uses of their names. -/
theorem addDeclarations (declarations : List AliasDeclaration) (facts : Facts) :
    declarations.foldl Facts.addDeclaration facts = { facts with
      aliasesBySection := facts.aliasesBySection.addUses
          (declarations.filterMap fun declaration => declaration.sec.map (declaration.name, ·)) } := by
  induction declarations generalizing facts with
  | nil => rfl
  | cons declaration declarations ih =>
    rw [List.foldl_cons, ih, Facts.addDeclaration]
    cases sec : declaration.sec with
    | none => rw [List.filterMap_cons_none (by rw [sec]; rfl)]
    | some place =>
      rw [List.filterMap_cons_some (by rw [sec]; rfl)]
      rfl

/-- Names are columns, and aliases lead to what they stand for. -/
theorem mem_names_addAliasColumns {uses : SectionMap} {name : String} (facts : Facts) :
    name ∈ (uses.foldl Facts.addAliasColumns facts).columnsBySection.names ↔ name ∈ facts.columnsBySection.names ∨
      ∃ label ∈ SectionMap.names uses, facts.aliases.contains label ∧ name ∈ Alias.resolve facts.aliases label := by
  induction uses generalizing facts with
  | nil => simp [SectionMap.names]
  | cons use uses ih =>
    have here : name ∈ (facts.addAliasColumns use).columnsBySection.names ↔ name ∈ facts.columnsBySection.names ∨
        ∃ label ∈ use.2, facts.aliases.contains label ∧ name ∈ Alias.resolve facts.aliases label := by
      have general (labels : List String) (map : SectionMap) :
          name ∈ ((labels.map (Alias.resolve facts.aliases)).foldl (fun map names => map.add use.1 names) map).names ↔
            name ∈ map.names ∨ ∃ label ∈ labels, name ∈ Alias.resolve facts.aliases label := by
        induction labels generalizing map with
        | nil => simp
        | cons label labels ih =>
          rw [List.map_cons, List.foldl_cons, ih, SectionMap.mem_names_add, List.exists_mem_cons_iff, or_assoc]
      refine (general (use.2.filter facts.aliases.contains) facts.columnsBySection).trans ?_
      simp only [List.mem_filter, and_assoc]
    have same : (facts.addAliasColumns use).aliases = facts.aliases := rfl
    have names : SectionMap.names (use :: uses) = use.2 ++ SectionMap.names uses := List.flatMap_cons
    rw [List.foldl_cons, ih, here, same, names, or_assoc]
    simp only [List.mem_append, or_and_right, exists_or]

section Noted

variable (sequence : TokenSequence) (aliases : NameMap AliasTarget) (mentions : List Column.Mention)
    {declared : List (String × Section)}
  (declares : (Facts.declarations sequence {}).filterMap
    (fun declaration => declaration.sec.map (declaration.name, ·)) = declared)
include declares

/-- What is noted of a statement whose mentions mean what they spell. -/
theorem noted_bare :
    let facts := Facts.read sequence {} aliases (mentions.map Column.Mention.bare)
    facts.columns = distinct ((mentions.filterMap (Column.Mention.columnUse? aliases)).map (·.1)) ∧
      facts.columnsBySection = SectionMap.grouped (mentions.filterMap (Column.Mention.columnUse? aliases)) ∧
      facts.aliasesBySection = SectionMap.grouped (declared ++ mentions.filterMap (Column.Mention.aliasUse? aliases)) ∧
      facts.aliases = aliases := by
  let noted := (Facts.declarations sequence {}).foldl Facts.addDeclaration (Facts.unread sequence {} aliases)
  have start : noted = { Facts.unread sequence {} aliases with aliasesBySection := SectionMap.grouped declared } := by
    simp only [noted, addDeclarations, declares]
    rfl
  have noColumns : noted.columns = [] ∧ noted.columnsBySection = [] := by rw [start]; exact ⟨rfl, rfl⟩
  have labels : noted.aliasesBySection = SectionMap.grouped declared := by rw [start]
  have targets : noted.aliases = aliases := by rw [start]; rfl
  obtain ⟨columns, bySection, uses, -, same, -⟩ := adds_bare mentions noted
  rw [noColumns.1, targets] at columns
  rw [noColumns.2, targets] at bySection
  rw [labels, targets] at uses
  exact ⟨columns, bySection, uses.trans List.foldl_append.symm, same.trans targets⟩

/-- What a clause has in a statement whose mentions mean what they spell. -/
theorem listed_bare (sec : Section) :
    (Facts.completed (Facts.read sequence {} aliases (mentions.map Column.Mention.bare))).columnsBySection.listed sec =
      addAllNew (distinct (SectionMap.namesIn (mentions.filterMap (Column.Mention.columnUse? aliases)) sec))
        (((distinct (SectionMap.namesIn (declared ++ mentions.filterMap (Column.Mention.aliasUse? aliases)) sec)).filter
          aliases.contains).flatMap (Alias.resolve aliases)) := by
  obtain ⟨-, columns, uses, same⟩ := noted_bare sequence aliases mentions declares
  have ordered : SectionMap.Ordered [] := .nil
  have listed (uses : List (String × Section)) :
      (SectionMap.grouped uses).listed sec = distinct (SectionMap.namesIn uses sec) :=
    SectionMap.listed_addUses ordered uses
  rw [listed_completed (columns ▸ SectionMap.ordered_addUses ordered _)
    (uses ▸ SectionMap.ordered_addUses ordered _), columns, uses, same, listed, listed]

/-- The columns of such a statement are mentioned or what an alias stands for that is declared or used. -/
theorem mem_columns_bare {name : String} :
    name ∈ (Facts.completed (Facts.read sequence {} aliases (mentions.map Column.Mention.bare))).columns ↔
      name ∈ (mentions.filterMap (Column.Mention.columnUse? aliases)).map (·.1) ∨
        ∃ label ∈ (declared ++ mentions.filterMap (Column.Mention.aliasUse? aliases)).map (·.1),
          aliases.contains label ∧ name ∈ Alias.resolve aliases label := by
  obtain ⟨columns, bySection, uses, same⟩ := noted_bare sequence aliases mentions declares
  let facts := Facts.read sequence {} aliases (mentions.map Column.Mention.bare)
  have kept (uses : SectionMap) (facts : Facts) : (uses.foldl Facts.addAliasColumns facts).columns = facts.columns := by
    induction uses generalizing facts with
    | nil => rfl
    | cons use uses ih => exact ih (facts.addAliasColumns use)
  have whole : (Facts.completed facts).columns =
      addAllNew facts.columns (facts.aliasesBySection.foldl Facts.addAliasColumns facts).columnsBySection.names :=
    congrArg (addAllNew · _) (kept _ facts)
  have added := @mem_names_addAliasColumns facts.aliasesBySection name facts
  rw [bySection, uses, same] at added
  simp only [SectionMap.mem_names_grouped] at added
  rw [whole, mem_addAllNew, columns, mem_distinct, uses, added, or_self_left]

end Noted

theorem mem_columns_completed {name : String} (member : name ∈ (Facts.completed facts).columnsBySection.listed sec) :
    name ∈ (Facts.completed facts).columns :=
  mem_addAllNew.mpr (.inr (SectionMap.mem_names_of_listed member))

end Completed

/-- Without aliases the facts list the columns that are mentioned. -/
theorem lists_undeclared {sequence : TokenSequence} (undeclared : Facts.declarations sequence {} = [])
    (uses : List (String × Section)) :
    (Facts.completed (Facts.read sequence {} {} ((uses.map mentionOf).map Column.Mention.bare))).Lists
        (Table.names sequence []) uses := by
  let read := ((uses.map mentionOf).map Column.Mention.bare).foldl Facts.addReference (Facts.unread sequence {} {})
  have same : Facts.read sequence {} {} ((uses.map mentionOf).map Column.Mention.bare) = read := by
    rw [Facts.read, undeclared]
    rfl
  obtain ⟨columns, bySection, used, names, aliases, tables⟩ :=
    adds_bare (uses.map mentionOf) (Facts.unread sequence {} {})
  change read.columns = _ at columns
  change read.columnsBySection = _ at bySection
  change read.aliasesBySection = _ at used
  have noAliases : (Facts.unread sequence {} {}).aliases = {} := rfl
  have each : (uses.map mentionOf).filterMap (Column.Mention.columnUse? {}) = uses := by
    rw [List.filterMap_map]
    exact List.filterMap_some
  have noUses : (uses.map mentionOf).filterMap (Column.Mention.aliasUse? {}) = [] := by
    rw [List.filterMap_map]
    exact List.filterMap_eq_nil_iff.mpr fun _ _ => rfl
  rw [noAliases, each] at columns bySection
  rw [noAliases, noUses] at used
  have grouped : read.columnsBySection = SectionMap.grouped uses := bySection
  have completed : Facts.completed read = read.completeColumns := by
    rw [Facts.completed, used]
    rfl
  have whole : read.completeColumns.columns = distinct (uses.map (·.1)) := by
    have all : read.completeColumns.columns = addAllNew read.columns read.columnsBySection.names := rfl
    rw [all, columns, grouped]
    refine addAllNew_of_subset fun name member => mem_distinct.mpr ?_
    exact SectionMap.mem_names_grouped.mp member
  rw [same, completed]
  exact ⟨tables, whole, grouped.trans (SectionMap.grouped_eq uses),
    names.trans (Facts.declaredNames_eq_nil undeclared), aliases, used⟩

/-- A parenthesis that ends in front of it names no sub-query. -/
def Unnamed (last next : Lexeme) : Prop := last.isPunctuation ")" = true → (next.isName || next.reads "AS") = false

theorem chain_open {part after : List Lexeme} (opens : ∀ lexeme ∈ part, lexeme.isPunctuation ")" = false)
    (later : after.IsChain Unnamed) : (part ++ after).IsChain Unnamed := by
  induction part with
  | nil => exact later
  | cons lexeme part ih =>
    obtain ⟨here, others⟩ := List.forall_mem_cons.mp opens
    exact List.isChain_cons.mpr ⟨fun _ _ closes => (Bool.false_ne_true (here.symm.trans closes)).elim, ih others⟩

section Statement

variable {limits : Limits} {text : String} {lexemes : List Lexeme} {sequence : TokenSequence}
  (reading : Reading limits text lexemes sequence)
include reading

/-- No parenthesis before a name holds a sub-query. -/
theorem bodies_unnamed (unnamed : ∀ spot, Within lexemes spot → spot.here.isPunctuation ")" = true →
    spot.next.any (fun next => next.isName || next.reads "AS") = false) : Subquery.bodies sequence = {} := by
  have none (close : Cursor) (member : close ∈ sequence.cursors) : Subquery.named? close = Option.none := by
    obtain ⟨index, inside, rfl⟩ := Cursor.mem_cursors member
    obtain ⟨spot, within, rfl⟩ := exists_spot reading.annotated inside
    have next := shows_next reading.annotated within.whole
    cases closes : (sequence.cursor spot.before.length).closes .subquery with
    | false => simp [Subquery.named?, closes]
    | true =>
      have closing : spot.here.isPunctuation ")" = true := by
        have right := isRightParen_of_closes closes
        rw [(shows_here reading.annotated within.whole).isRightParen] at right
        exact right
      obtain ⟨noName, noAs⟩ : spot.after.head?.any isName = false ∧ spot.after.head?.any (reads "AS") = false := by
        have other := unnamed spot within closing
        unfold Spot.next at other
        cases found : spot.after.head? with
        | none => exact ⟨rfl, rfl⟩
        | some found' => simpa [found] using other
      rw [← next.isName] at noName
      rw [← next.isWord] at noAs
      simp [Subquery.named?, noAs, noName]
  rw [Subquery.bodies, List.filterMap_eq_nil_iff.mpr none]
  rfl

theorem bodiless_of_chain (chain : lexemes.IsChain Unnamed) : Subquery.bodies sequence = {} := by
  refine bodies_unnamed reading fun spot within closes => ?_
  rw [within.whole, List.isChain_split] at chain
  have next : ∀ next ∈ spot.after.head?, Unnamed spot.here next := (List.isChain_cons.mp chain.2).1
  unfold Spot.next
  cases found : spot.after.head? with
  | none => rfl
  | some lexeme => exact next lexeme found closes

/-- No parenthesis in the place of a table ends. -/
theorem bodies_unqueried
    (unqueried : ∀ spot, Within lexemes spot → spot.here.isPunctuation ")" = true → spot.isIn .subquery = false) :
    Subquery.bodies sequence = {} := by
  have none (close : Cursor) (member : close ∈ sequence.cursors) : Subquery.named? close = Option.none := by
    obtain ⟨index, inside, rfl⟩ := Cursor.mem_cursors member
    obtain ⟨spot, within, rfl⟩ := exists_spot reading.annotated inside
    have other : (sequence.cursor spot.before.length).closes .subquery = false := by
      rw [Bool.eq_false_iff]
      intro closes
      have right := isRightParen_of_closes closes
      rw [(shows_here reading.annotated within.whole).isRightParen] at right
      have noQuery := unqueried spot within right
      rw [Cursor.closes, Places.paren?, sign?_here reading.annotated within.whole, ← within.context,
        Option.bind_some, Context.sign, NestingRun.side?_eq_closing.mpr right] at closes
      unfold Spot.isIn at noQuery
      cases opened : spot.context.opened with
      | nil =>
        rw [opened] at closes
        cases closes
      | cons frame outer =>
        rw [opened] at closes noQuery
        have kind : frame.kind = .subquery := by simpa using closes
        simp [kind] at noQuery
    simp [Subquery.named?, other]
  rw [Subquery.bodies, List.filterMap_eq_nil_iff.mpr none]
  rfl

variable {kind : StatementKind} (known : StatementKind.ofTokens sequence = .ok kind) (plain : kind ≠ .create)
include known plain

/-- Where columns mean themselves, the facts follow from the mentions of them and from the targets of aliases. -/
theorem facts_meant (clauseless : WithClause.ofTokens sequence = .ok {}) (bodiless : Subquery.bodies sequence = {})
    {mentions : List Column.Mention}
    (means : ∀ name ∈ mentions.filterMap Column.Mention.column?,
      Column.meaning (Table.aliases sequence (Table.names sequence [])) {} name = .ok ([name], name))
    {aliases : NameMap AliasTarget}
    (mentioned : Column.mentions sequence (Facts.declaredNames sequence {})
      ((Facts.declarations sequence {}).map (·.position)) = mentions)
    (targets : ∀ known, Knows known (mentions.filterMap Column.Mention.column?) →
      AliasDeclaration.targets (Facts.declarations sequence {}) sequence ⟨known, Facts.declaredNames sequence {}⟩ {} =
        .ok aliases) :
    (Query.ofText text limits).facts =
      .ok (Facts.completed (Facts.read sequence {} aliases (mentions.map Column.Mention.bare))) := by
  obtain ⟨analyze, within⟩ := exists_analyze limits text
  have bodies : Bodies.ofStatement sequence {} (Subquery.bodies sequence) analyze = {} := by
    rw [bodiless]
    rfl
  obtain ⟨names, scanned, knows⟩ := @scan_bare _ {} mentions means {} [] fun _ => rfl
  have found : Facts.ofTokens sequence kind analyze =
      .ok (Facts.completed (Facts.read sequence {} aliases (mentions.map Column.Mention.bare))) := by
    refine Facts.ofTokens_ok_iff.mpr ⟨?_, {}, ⟨mentions.map Column.Mention.bare, names⟩, aliases,
      clauseless, ?_, ?_, rfl⟩
    · rw [beq_eq_false_iff_ne.mpr plain, Bool.false_and]
    · rw [Column.scan, if_neg plain, mentioned, bodies]
      exact scanned
    · rw [bodies]
      exact targets names knows
  change factsAt limits 0 text = _
  rw [within, statementFacts, reading.tokens]
  simp only [bind, Except.bind, known, found]

/-- Without aliases every mention is one of a column. -/
theorem facts_undeclared (clauseless : WithClause.ofTokens sequence = .ok {}) (bodiless : Subquery.bodies sequence = {})
    (undeclared : Facts.declarations sequence {} = []) {uses : List (String × Section)}
    (means : ∀ use ∈ uses, Column.meaning (Table.aliases sequence (Table.names sequence [])) {} use.1 =
      .ok ([use.1], use.1))
    (mentioned : Column.mentions sequence [] [] = uses.map mentionOf) : (Query.ofText text limits).facts =
      .ok (Facts.completed (Facts.read sequence {} {} ((uses.map mentionOf).map Column.Mention.bare))) := by
  refine facts_meant reading known plain clauseless bodiless
    (fun name member => ?_) ?_ fun _ _ => by rw [undeclared]; rfl
  · obtain ⟨mention, noted, column⟩ := List.mem_filterMap.mp member
    obtain ⟨use, used, rfl⟩ := List.mem_map.mp noted
    cases column
    exact means use used
  · rw [Facts.declaredNames_eq_nil undeclared, undeclared]
    exact mentioned

variable (noWith : ∀ lexeme ∈ lexemes, lexeme.reads "WITH" = false) (bodiless : Subquery.bodies sequence = {})
  (unaliased : Table.aliases sequence (Table.names sequence []) = {})
include noWith bodiless unaliased

theorem exists_facts_undeclared (undeclared : Facts.declarations sequence {} = []) {uses : List (String × Section)}
    (mentioned : Column.mentions sequence [] [] = uses.map mentionOf) :
    ∃ facts, (Query.ofText text limits).facts = .ok facts ∧
      facts.Lists (Table.names sequence []) uses :=
  ⟨_, facts_undeclared reading known plain (withClause_bare reading.annotated noWith) bodiless undeclared
    (fun use _ => unaliased ▸ meaning_bare use.1) mentioned, lists_undeclared undeclared uses⟩

end Statement

end Proofs.BareFacts

namespace Proofs.Unnested.Reading
open Spots

variable {limits : Limits} {text : String} {lexemes : List Lexeme} {sequence : TokenSequence}

/-- Where nothing is renamed, the columns of a selection are those that are mentioned. -/
theorem exists_facts_columns (reading : Reading limits text lexemes sequence)
    (known : StatementKind.ofTokens sequence = .ok .select)
    (noWith : ∀ lexeme ∈ lexemes, lexeme.normalized ≠ "WITH")
    (noSelect : ∀ lexeme ∈ lexemes.tail, lexeme.normalized ≠ "SELECT") {tables : List String}
    (named : (spots (Context.start lexemes) [] lexemes []).filterMap Spot.table? = tables)
    (unnamed : (spots (Context.start lexemes) [] lexemes []).filterMap (Spot.alias? (distinct tables)) = [])
    (undeclared : ∀ spot ∈ spots (Context.start lexemes) [] lexemes [], spot.mayDeclare = false)
    {spelled : List (String × Section)}
    (mentioned : (spots (Context.start lexemes) [] lexemes []).filterMap (Spot.mention? [] []) =
      spelled.map MeantColumns.mentionOf) :
    ∃ facts, (Query.ofText text limits).facts = .ok facts ∧ facts.tables = distinct tables ∧
      facts.columns = distinct (spelled.map (·.1)) := by
  have names : Table.names sequence [] = distinct tables := by
    rw [names_eq reading.annotated, named]
    exact List.filter_eq_self.mpr fun _ _ => rfl
  have unaliased : Table.aliases sequence (Table.names sequence []) = {} := by
    rw [names, aliases_eq reading.annotated, unnamed]
    rfl
  obtain ⟨facts, read, lists⟩ := BareFacts.exists_facts_undeclared reading known nofun
    (fun lexeme member => by simp [Lexeme.reads, noWith lexeme member]) (reading.bodiless noWith noSelect) unaliased
    (ColumnSpots.declarations_eq_nil reading.annotated undeclared)
    ((ColumnSpots.mentions_eq reading.annotated [] []).trans mentioned)
  exact ⟨facts, read, lists.tables.trans names, lists.columns⟩

end Proofs.Unnested.Reading

end QueryFacts

import QueryFacts.Proofs.TickedStatements

/-! The columns of statements that write every name in backticks. -/

namespace QueryFacts.TickedNames
open Lexeme

/-- The names as operands with commas between them. -/
def formulaFrom (first : String) : (more : List String) → (∀ name ∈ first :: more, '.' ∉ name.toList) → Formula
  | [], plain => .column (ofTicked first true) rfl (plain first List.mem_cons_self)
  | next :: more, plain =>
    .joined (.column (ofTicked first true) rfl (plain first List.mem_cons_self)) comma (.comma (by decide))
      (formulaFrom next more fun name member => plain name (List.mem_cons_of_mem _ member))

variable (names : TickedNames)

def query : FormulaSelection where
  select := ⟨ofKeyword "SELECT" true, by decide, rfl⟩
  formula := formulaFrom names.first names.more fun name member => (names.single name member).2
  source := ⟨ofKeyword "FROM" true, by decide, rfl⟩
  table := ofName "t" true
  named := rfl

def table : ColumnCreation where
  create := ofKeyword "CREATE" true
  temporary := none
  table := ofKeyword "TABLE" true
  name := ofName "t" true
  opening := Proofs.ColumnListStatement.opening
  item := defined names.first false
  more := names.more.map fun name => (comma, defined name true)
  closing := Proofs.ColumnListStatement.closing
  rest := []

end QueryFacts.TickedNames

namespace QueryFacts.Proofs.TickedColumns
open Text Lexeme TickedText TickedStatements ColumnListStatement Parenthesis Spots Clauses MentionSpots
open SelectList NestingRun CreatedColumns
  InsertTargets Unnested MeantColumns BareFacts

variable {names : TickedNames} {limits : Limits}

section Selection

variable {first : String} {more : List String} {plain : ∀ name ∈ first :: more, '.' ∉ name.toList}

theorem lexemes_formula :
    (TickedNames.formulaFrom first more plain).lexemes = listed TickedNames.ticked true first more := by
  induction more generalizing first with
  | nil => rfl
  | cons next more ih =>
    rw [listed_cons, ← @ih next fun name member => plain name (List.mem_cons_of_mem _ member)]
    rfl

/-- A comma is no star, so that only names are mentioned. -/
theorem mentioned_formula : (TickedNames.formulaFrom first more plain).mentioned true =
    (first :: more).filter (!Keyword.isIgnoredFunction ·) := by
  have here {name : String} {single : '.' ∉ name.toList} :
      (Formula.column (ofTicked name true) rfl single).mentioned true =
      [name].filter (!Keyword.isIgnoredFunction ·) := by
    cases ignored : Keyword.isIgnoredFunction name <;> simp [Formula.mentioned, ofTicked, normalized, ignored]
  induction more generalizing first with
  | nil => exact here
  | cons next more ih =>
    have mark : comma.isWildcard = false := rfl
    rw [TickedNames.formulaFrom, Formula.mentioned, here, ih, mark, Bool.false_and, Bool.and_false,
      if_neg Bool.false_ne_true, List.append_nil, ← List.filter_append]
    rfl

theorem depth_formula : (TickedNames.formulaFrom first more plain).depth = 0 := by
  induction more generalizing first with
  | nil => rfl
  | cons next more ih => rw [TickedNames.formulaFrom, Formula.depth, ih]; rfl

theorem exists_facts_selection (names : TickedNames) (few : names.selectionLexemes.length ≤ limits.maxTokens) :
    ∃ facts, (Query.ofText names.selection limits).facts = .ok facts ∧ facts.columns = distinct names.columns := by
  have lexemes : names.query.lexemes = names.selectionLexemes := by
    rw [FormulaSelection.lexemes, TickedNames.query, lexemes_formula]
    rfl
  obtain ⟨normal, items⟩ := readsAs_selection names
  have read : (Lexer.items (normalize names.selection.toList)).map ofItems = .ok names.query.lexemes := by
    rw [normal, lexemes]
    exact items
  have depth : names.query.formula.depth = 0 := depth_formula
  have short : names.query.classified.length ≤ limits.maxTokens := by
    rw [Multiplication.length_classified, lexemes]
    exact few
  obtain ⟨sequence, reading⟩ := Multiplication.exists_reading_selection read short (depth.trans_le (Nat.zero_le _))
  obtain ⟨facts, found, columns⟩ := Multiplication.facts_selection reading
  exact ⟨facts, found, columns.trans (congrArg distinct mentioned_formula)⟩

end Selection

section Statement

variable {sequence : TokenSequence}

theorem unclosed_listed {item : String → Bool → List Lexeme}
    (each : ∀ name apart, ∀ lexeme ∈ item name apart, lexeme.isPunctuation ")" = false) :
    ∀ lexeme ∈ names.listed item false, lexeme.isPunctuation ")" = false :=
  forall_listed (show comma.isPunctuation ")" = false by decide) each false

variable {verb word : Lexeme} {rest : List Lexeme} (begins : (verb, word) ∈ verbs)
  (expected : ∀ lexeme ∈ word :: rest, Expected lexeme)
include begins expected

/-- Whatever the names spell, none of them is one of these keywords. -/
theorem reads_statement : ∀ lexeme ∈ verb :: word :: rest, lexeme.reads "AS" = false ∧ lexeme.reads "WITH" = false :=
  forall_statement begins expected (by decide) (fun _ _ => ⟨rfl, rfl⟩) (by decide)

/-- No clause begins in which aliases are declared. -/
theorem undeclared_statement (annotated : annotate limits (verb :: word :: rest) = .ok sequence) :
    Facts.declarations sequence {} = [] := by
  have start : (Context.start (verb :: word :: rest)).Avoids Keyword.precedesColumns :=
    ⟨show Keyword.precedesColumns "" = false by decide, List.forall_mem_nil _⟩
  have other : ∀ lexeme ∈ verb :: word :: rest, lexeme.isKeyword = true →
      Keyword.precedesColumns lexeme.normalized = false :=
    forall_statement begins expected (by decide) (fun _ _ keyword => by cases keyword) (by decide)
  refine ColumnSpots.declarations_eq_nil annotated fun spot member => ?_
  have clause := clause_of_avoids start (fun lexeme member keyword => .inr (other lexeme member keyword)) spot member
  simp [Spot.mayDeclare, clause]

end Statement

section Table

variable {sequence : TokenSequence}

/-- Columns of no clause are noted among the columns alone. -/
theorem addReference_columns (columns : List String) (facts : Facts) :
    (columns.map fun name => Column.Reference.column [name] name none).foldl Facts.addReference facts =
      { facts with columns := addAllNew facts.columns columns, writtenColumns :=
          addAllNew facts.writtenColumns columns } := by
  induction columns generalizing facts with
  | nil => rfl
  | cons name columns ih => exact ih _

theorem flat_defined (name : String) (apart : Bool) : ∀ lexeme ∈ TickedNames.defined name apart, lexeme.side? = none :=
  List.forall_mem_cons.mpr ⟨rfl, List.forall_mem_singleton.mpr rfl⟩

theorem isItem_defined (name : String) (apart : Bool) : IsItem (TickedNames.defined name apart) := by
  refine ⟨nofun, (Selections.shallow_level (flat_defined name apart) 0).balanced, fun place lexeme found mark => ?_⟩
  have noMark : ∀ lexeme ∈ TickedNames.defined name apart, lexeme.isPunctuation "," = false :=
    List.forall_mem_cons.mpr ⟨rfl, List.forall_mem_singleton.mpr rfl⟩
  cases (noMark lexeme (List.mem_of_getElem? found)).symm.trans mark

theorem lexemes_table (names : TickedNames) : names.table.lexemes = names.creationLexemes := by
  have inner : names.table.inner = names.listed TickedNames.defined false := by
    simp [ColumnCreation.inner, ColumnCreation.joined, TickedNames.table, TickedNames.listed,
      Lexeme.listed, List.flatMap_map]
  rw [ColumnCreation.lexemes, inner]
  rfl

theorem formed_table (names : TickedNames) : names.table.WellFormed := by
  have create :
      (ofKeyword "CREATE" true).isWord "CREATE" = true ∧ (ofKeyword "TABLE" true).isWord "TABLE" = true := by decide
  refine ⟨⟨create.1, rfl⟩, nofun, ⟨create.2, rfl⟩, nofun, rfl, rfl, fun item member => ?_, fun entry member => ?_, rfl⟩
  · rcases List.mem_cons.mp member with rfl | later
    · exact isItem_defined names.first false
    · obtain ⟨entry, inside, rfl⟩ := List.mem_map.mp later
      obtain ⟨name, -, rfl⟩ := List.mem_map.mp inside
      exact isItem_defined name true
  · obtain ⟨name, -, rfl⟩ := List.mem_map.mp member
    rfl

theorem declared_table (names : TickedNames) : names.table.items.filterMap declared? =
    names.definitions.map fun name => .column [name] name none := by
  have each (name : String) (apart : Bool) : declared? (TickedNames.defined name apart) =
      if !Keyword.isTableConstraint name then some (.column [name] name none) else none := by
    cases constraint : Keyword.isTableConstraint name <;>
      simp [declared?, TickedNames.defined, ofTicked, isName, normalized, constraint]
  have items :
      names.table.items.filterMap declared? = (names.all.map (TickedNames.defined · true)).filterMap declared? := by
    have begins :
        names.table.items = TickedNames.defined names.first false :: names.more.map (TickedNames.defined · true) := by
      simp [ColumnCreation.items, TickedNames.table, Function.comp_def]
    rw [begins, TickedNames.all, List.map_cons, List.filterMap_cons, List.filterMap_cons, each, each]
  rw [items, List.filterMap_map, TickedNames.definitions, ← List.filterMap_eq_map, List.filterMap_filter]
  exact List.filterMap_congr fun name _ => each name true

variable (reading : Reading limits names.creation names.creationLexemes sequence)
include reading

/-- Its only parenthesis ends with it. -/
theorem bodiless_creation : Subquery.bodies sequence = {} := by
  have inner := @unclosed_listed names TickedNames.defined fun name apart =>
    List.forall_mem_cons.mpr ⟨rfl, List.forall_mem_singleton.mpr rfl⟩
  have head : ∀ lexeme ∈ [ofKeyword "CREATE" true, ofKeyword "TABLE" true, ofName "t" true, opening],
      lexeme.isPunctuation ")" = false := by decide
  exact bodiless_of_chain reading (chain_open head (chain_open inner (.singleton closing)))

theorem facts_creation : ∃ facts, (Query.ofText names.creation limits).facts = .ok facts ∧
    facts.columns = distinct names.definitions := by
  have annotated : annotate limits names.table.lexemes = .ok sequence := lexemes_table names ▸ reading.annotated
  have begins : (ofKeyword "CREATE" true, ofKeyword "TABLE" true) ∈ verbs := by decide
  have noWords := reads_statement begins (expected_creation names)
  have defined : definesTableByQuery sequence = false := by
    refine reading.undefined fun spot within as => ?_
    have inside : spot.here ∈ names.creationLexemes := within.whole ▸ by simp
    cases (noWords spot.here inside).1.symm.trans as
  obtain ⟨kind, scanned⟩ := scan_creation (formed_table names) annotated
  have undeclared := undeclared_statement begins (expected_creation names) reading.annotated
  let noted := Facts.completed (Facts.read sequence {} {} (names.definitions.map fun name => .column [name] name none))
  obtain ⟨analyze, within⟩ := exists_analyze limits names.creation
  have bodies : Bodies.ofStatement sequence {} (Subquery.bodies sequence) analyze = {} := by
    rw [bodiless_creation reading]
    rfl
  have found : Facts.ofTokens sequence .create analyze = .ok noted := by
    refine Facts.ofTokens_ok_iff.mpr ⟨by rw [defined, Bool.and_false], {}, ⟨_, {}⟩, {},
      withClause_bare reading.annotated fun lexeme member => (noWords lexeme member).2, scanned .., ?_, ?_⟩
    · rw [undeclared]
      rfl
    · rw [declared_table]
  refine ⟨noted, ?_, ?_⟩
  · change factsAt limits 0 names.creation = _
    rw [within, statementFacts, reading.tokens]
    simp only [bind, Except.bind, kind, found]
  · have read : Facts.read sequence {} {} (names.definitions.map fun name => .column [name] name none) =
        (names.definitions.map fun name => .column [name] name none).foldl Facts.addReference
            (Facts.unread sequence {} {}) := by
      rw [Facts.read, undeclared]
      rfl
    have whole : noted = _ := congrArg Facts.completed read
    rw [whole, addReference_columns]
    rfl

end Table

section Insertion

variable {sequence : TokenSequence} {context : Context} {before after : List Lexeme} {last : Lexeme}

/-- The columns of the insertion, as they are mentioned. -/
def inserted (columns : List String) : List (String × Section) :=
  (columns.filter (!Keyword.isIgnoredFunction ·)).map (·, Section.insert)

/-- The names of the list are mentioned as they are spelled. -/
theorem names_ticked (listing : Listing context) (fresh : Fresh last) (mark : last.isMark = true)
    (noDot : last.isDot = false)
    (halts : Halts after) (first : String) (more : List String) : Names ⟨{}, []⟩ context (last :: before)
      (listed TickedNames.ticked false first more) after ((inserted (first :: more)).map mentionOf) [] := by
  have names :=
    @names_spelled ⟨{}, []⟩ context before after last ofTicked id
      (fun _ _ => ⟨rfl, rfl, rfl⟩) listing fresh mark noDot halts
    first more false
  have mentions : (inserted (first :: more)).map mentionOf =
      ((first :: more).filter (!Keyword.isIgnoredFunction ·)).map (Column.Mention.ofName [] · .insert) := by
    rw [inserted, List.map_map]
    exact List.map_congr_left fun name _ => (ofName_bare name .insert).symm
  rw [mentions]
  exact names

theorem names_insertion (names : TickedNames) :
    Names ⟨{}, []⟩ (Context.start names.insertionLexemes) [] names.insertionLexemes []
    ((inserted names.all).map mentionOf) [] := by
  let into : Context := { last := some (ofKeyword "INTO" true), clause := some "INTO" }
  let words := [ofKeyword "INSERT" true, ofKeyword "INTO" true]
  let row := opening :: (names.listed TickedNames.one false ++ [closing])
  let list := opening :: (names.listed TickedNames.ticked false ++ closing :: ofKeyword "VALUES" true :: row)
  have start : Context.start names.insertionLexemes = {} := start_inserting false _
  have reached : Context.after {} words = into := after_inserting (show "INSERT" ∈ inserting by decide)
  have begins : Names ⟨{}, []⟩ {} [] words (ofName "t" true :: list ++ []) [] [] := .nameless (by decide)
  have unmentioned : Spot.mention? [] [] ⟨into, words.reverse, ofName "t" true, list ++ []⟩ = none := by
    simp [Spot.mention?, Spot.section?, Spot.clause, into, words, ofName, isWildcard]
  have table :
      Names ⟨{}, []⟩ into words.reverse [ofName "t" true] (list ++ []) (none : Option Column.Mention).toList [] :=
    .single (declares_of_clause rfl) (fun _ => rfl) unmentioned
  have inside : Listing ((into.step (ofName "t" true)).step opening) := ⟨rfl, rfl, [], rfl⟩
  have columns (before : List Lexeme) :=
    @names_ticked _ before (closing :: ofKeyword "VALUES" true :: row ++ []) opening inside
    (fresh_opening true) rfl rfl ⟨rfl, rfl⟩ names.first names.more
  have ones : ∀ lexeme ∈ names.listed TickedNames.one false, lexeme.isName = false ∧ lexeme.isWildcard = false :=
    forall_listed ⟨rfl, rfl⟩ (fun _ _ => List.forall_mem_singleton.mpr ⟨rfl, rfl⟩) false
  have begin : ∀ lexeme ∈ [closing, ofKeyword "VALUES" true, opening], lexeme.isName = false ∧
      lexeme.isWildcard = false := by decide
  have values {context : Context} {before : List Lexeme} :
      Names ⟨{}, []⟩ context before (closing :: ofKeyword "VALUES" true :: row) [] [] [] :=
    .nameless (List.forall_mem_append.mpr ⟨begin, List.forall_mem_append.mpr ⟨ones, by decide⟩⟩)
  have listed : Names ⟨{}, []⟩ (into.step (ofName "t" true)) (ofName "t" true :: words.reverse) list []
      ((inserted names.all).map mentionOf) [] := by
    have whole := (columns (ofName "t" true :: words.reverse)).append values
    rw [List.append_nil, List.append_nil] at whole
    exact .skip ⟨rfl, rfl⟩ whole
  have later := table.append listed
  rw [← reached] at later
  rw [start]
  exact begins.append later

variable (reading : Reading limits names.insertion names.insertionLexemes sequence)
include reading

/-- Its parentheses end in front of VALUES, and with it. -/
theorem bodiless_insertion : Subquery.bodies sequence = {} := by
  have columns := @unclosed_listed names TickedNames.ticked fun _ _ => List.forall_mem_singleton.mpr rfl
  have row := @unclosed_listed names TickedNames.one fun _ _ => List.forall_mem_singleton.mpr rfl
  have head : ∀ lexeme ∈ [ofKeyword "INSERT" true, ofKeyword "INTO" true, ofName "t" true, opening],
      lexeme.isPunctuation ")" = false := by decide
  have values : ∀ lexeme ∈ [ofKeyword "VALUES" true, opening], lexeme.isPunctuation ")" = false := by decide
  have later := chain_open values (chain_open row (.singleton closing))
  refine bodiless_of_chain reading (chain_open head (chain_open columns ?_))
  exact .cons_cons (fun _ => by decide) later

theorem facts_insertion : ∃ facts, (Query.ofText names.insertion limits).facts = .ok facts ∧
    facts.columnsBySection.find? .insert =
    if names.columns = [] then none else some (distinct names.columns) := by
  have begins : (ofKeyword "INSERT" true, ofKeyword "INTO" true) ∈ verbs := by decide
  have noWords := reads_statement begins (expected_insertion names)
  have undeclared := undeclared_statement begins (expected_insertion names) reading.annotated
  have bodiless := bodiless_insertion reading
  have mentioned := MentionSpots.mentions_eq reading.annotated bodiless (names_insertion names)
  rw [undeclared] at mentioned
  have means : ∀ use ∈ inserted names.all,
      Column.meaning (Table.aliases sequence (Table.names sequence [])) {} use.1 = .ok ([use.1], use.1) :=
    List.forall_mem_map.mpr fun name inside => meaning_bare (names.single name (List.mem_filter.mp inside).1).2
  have found := facts_undeclared reading (@kind_inserting limits sequence false _ _ reading) (by decide)
    (withClause_bare reading.annotated fun lexeme member => (noWords lexeme member).2) bodiless
      undeclared means mentioned
  refine ⟨_, found, ?_⟩
  rw [(lists_undeclared undeclared _).columnsBySection, SectionMap.find?_ofNames, inserted,
    SectionMap.namesIn_map, if_pos rfl]
  rfl

end Insertion

section Length

theorem shallow_list {item : String → Bool → List Lexeme}
    (flat : ∀ name apart, ∀ lexeme ∈ item name apart, lexeme.side? = none) :
    Selections.Shallow (sides (opening :: (names.listed item false ++ [closing]))) 1 := by
  have level := @forall_listed names _ _ (show comma.side? = none by decide) flat false
  have inner := (@Selections.shallow_level (names.listed item false) level 0).wrap
  rw [sides, List.map_cons, List.map_append]
  exact inner

theorem length_listed_names {item : String → Bool → List Lexeme} {size : Nat}
    (each : ∀ name apart, (item name apart).length = size)
    (apart : Bool) : (names.listed item apart).length + 1 = names.all.length * (size + 1) := by
  rw [TickedNames.listed, length_listed each, TickedNames.all, List.length_cons]
  grind

theorem lengths (names : TickedNames) : names.selectionLexemes.length = 2 * names.all.length + 2 ∧
    names.creationLexemes.length = 3 * names.all.length + 4 ∧ names.insertionLexemes.length =
        4 * names.all.length + 6 := by
  have ticked (apart : Bool) := @length_listed_names names TickedNames.ticked 1 (fun _ _ => rfl) apart
  have defined := @length_listed_names names TickedNames.defined 2 (fun _ _ => rfl) false
  have one := @length_listed_names names TickedNames.one 1 (fun _ _ => rfl) false
  have ticked' := ticked false
  have ticked := ticked true
  simp only [TickedNames.selectionLexemes, TickedNames.creationLexemes, TickedNames.insertionLexemes,
    List.length_cons, List.length_append, List.length_nil]
  omega

end Length

section Readings

variable (deep : 1 ≤ limits.maxNestingDepth)
include deep

theorem exists_facts_creation (names : TickedNames) (few : names.creationLexemes.length ≤ limits.maxTokens) :
    ∃ facts, (Query.ofText names.creation limits).facts = .ok facts ∧ facts.columns = distinct names.definitions := by
  have begins : (ofKeyword "CREATE" true, ofKeyword "TABLE" true) ∈ verbs := by decide
  have words : Selections.Shallow (sides [ofKeyword "CREATE" true, ofKeyword "TABLE" true, ofName "t" true]) 1 :=
    Selections.shallow_level (by decide) 1
  have shallow := words.append (@shallow_list names _ flat_defined)
  rw [← Selections.sides_append] at shallow
  obtain ⟨sequence, reading⟩ :=
    exists_reading_statement begins (expected_creation names) (readsAs_creation names) shallow deep few
  exact facts_creation reading

theorem exists_facts_insertion (names : TickedNames) (few : names.insertionLexemes.length ≤ limits.maxTokens) :
    ∃ facts, (Query.ofText names.insertion limits).facts = .ok facts ∧ facts.columnsBySection.find? .insert =
      if names.columns = [] then none else some (distinct names.columns) := by
  have begins : (ofKeyword "INSERT" true, ofKeyword "INTO" true) ∈ verbs := by decide
  have words : Selections.Shallow (sides [ofKeyword "INSERT" true, ofKeyword "INTO" true, ofName "t" true]) 1 :=
    Selections.shallow_level (by decide) 1
  have values : Selections.Shallow (sides [ofKeyword "VALUES" true]) 1 := Selections.shallow_level (by decide) 1
  have columns := @shallow_list names TickedNames.ticked fun _ _ => List.forall_mem_singleton.mpr rfl
  have row := @shallow_list names TickedNames.one fun _ _ => List.forall_mem_singleton.mpr rfl
  have shallow : Selections.Shallow (sides names.insertionLexemes) 1 := by
    have whole := words.append (columns.append (values.append row))
    simpa [← Selections.sides_append, TickedNames.insertionLexemes] using whole
  obtain ⟨sequence, reading⟩ :=
    exists_reading_statement begins (expected_insertion names) (readsAs_insertion names) shallow deep few
  exact facts_insertion reading

end Readings

theorem distinct_filter_iff {keeps : String → Bool} {values : List String} :
    distinct (values.filter keeps) = distinct values ↔ ∀ value ∈ values, keeps value = true := by
  constructor
  · intro same value member
    have kept : value ∈ distinct (values.filter keeps) := same ▸ mem_distinct.mpr member
    exact (List.mem_filter.mp (mem_distinct.mp kept)).2
  · exact fun all => congrArg distinct (List.filter_eq_self.mpr all)

/-- Names in backticks are the columns of a selection, of a table that is created, and of an insertion, but for
those that spell a function which is never a column, or a word that begins a constraint. -/
theorem columns_of_ticked (names : TickedNames) {limits : Limits} (few : 4 * names.all.length + 6 ≤ limits.maxTokens)
    (deep : 1 ≤ limits.maxNestingDepth) :
    ∃ selected created inserted : Facts, (Query.ofText names.selection limits).facts = .ok selected ∧
      (Query.ofText names.creation limits).facts = .ok created ∧
        (Query.ofText names.insertion limits).facts = .ok inserted ∧
      (selected.columns = distinct names.columns ∧
        (selected.columns = distinct names.all ↔ ∀ name ∈ names.all, Keyword.isIgnoredFunction name = false)) ∧
      (created.columns = distinct names.definitions ∧
        (created.columns = distinct names.all ↔ ∀ name ∈ names.all, Keyword.isTableConstraint name = false)) ∧
      (inserted.columnsBySection.find? .insert = (if names.columns = [] then none else some (distinct names.columns)) ∧
        (inserted.columnsBySection.find? .insert = some (distinct names.all) ↔
          ∀ name ∈ names.all, Keyword.isIgnoredFunction name = false)) := by
  obtain ⟨first, second, third⟩ := lengths names
  obtain ⟨selected, selection, columns⟩ := @exists_facts_selection limits names (by omega)
  obtain ⟨created, creation, definitions⟩ := exists_facts_creation deep names (by omega)
  obtain ⟨inserted, insertion, targets⟩ := exists_facts_insertion deep names (by omega)
  have kept {never : String → Bool} : distinct (names.all.filter (!never ·)) = distinct names.all ↔
      ∀ name ∈ names.all, never name = false := by
    simpa using @distinct_filter_iff (!never ·) names.all
  refine ⟨selected, created, inserted, selection, creation, insertion, ⟨columns, columns ▸ kept⟩,
    ⟨definitions, definitions ▸ kept⟩, targets, ?_⟩
  rw [targets, ← kept]
  have some : distinct names.all ≠ [] := addAllNew_ne_nil nofun
  split
  next none =>
    have nothing : distinct (names.all.filter (!Keyword.isIgnoredFunction ·)) = [] := congrArg distinct none
    rw [nothing]
    exact iff_of_false nofun some.symm
  next => exact Option.some_inj

/-- A column that is called COUNT can be created, but neither selected nor inserted into, and one that is called
KEY cannot be created. -/
theorem columns_of_ticked_words : ∃ selected created inserted : Facts,
    (Query.ofText "SELECT `COUNT`, `KEY`, `a b` FROM t" {}).facts = .ok selected ∧
      (Query.ofText "CREATE TABLE t (`COUNT` INT, `KEY` INT, `a b` INT)" {}).facts = .ok created ∧
      (Query.ofText "INSERT INTO t (`COUNT`, `KEY`, `a b`) VALUES (1, 1, 1)" {}).facts = .ok inserted ∧
      selected.columns = ["KEY", "a b"] ∧ created.columns = ["COUNT", "a b"] ∧
      inserted.columnsBySection.find? .insert = some ["KEY", "a b"] := by
  let names : TickedNames := ⟨"COUNT", ["KEY", "a b"], by decide⟩
  obtain ⟨selected, created, inserted, selection, creation, insertion, ⟨columns, -⟩, ⟨definitions, -⟩, targets, -⟩ :=
    @columns_of_ticked names {} (by decide) (by decide)
  have texts : names.selection = "SELECT `COUNT`, `KEY`, `a b` FROM t" ∧
      names.creation = "CREATE TABLE t (`COUNT` INT, `KEY` INT, `a b` INT)" ∧
      names.insertion = "INSERT INTO t (`COUNT`, `KEY`, `a b`) VALUES (1, 1, 1)" := by decide
  have kept : names.columns = ["KEY", "a b"] ∧ names.definitions = ["COUNT", "a b"] := by decide
  rw [texts.1] at selection
  rw [texts.2.1] at creation
  rw [texts.2.2] at insertion
  rw [kept.1] at columns targets
  rw [kept.2] at definitions
  exact ⟨selected, created, inserted, selection, creation, insertion, columns, definitions, targets⟩

end QueryFacts.Proofs.TickedColumns

import QueryFacts.Proofs.ClauseColumns
import QueryFacts.Proofs.InsertTargets
import QueryFacts.Proofs.LabelledItems
import QueryFacts.Proofs.Renaming

/-! Columns that are inserted from a query. The labels of the query are aliases in the whole statement, so that
a column of the insertion that is called like a label is taken for it: it comes after the columns that are
called like none, as what the label stands for. -/

namespace QueryFacts
open Text

/-- A column that is inserted into, the name that is selected for it, and the label of this name. -/
structure InsertedColumn where
  name : String
  source : String
  label : Option String := none

structure InsertedSelection where
  table : String
  origin : String
  first : InsertedColumn
  more : List InsertedColumn := []

namespace InsertedSelection
open Proofs.Selections

def items (selection : InsertedSelection) : List InsertedColumn := selection.first :: selection.more

/-- The columns that are inserted into. -/
def columns (selection : InsertedSelection) : List String := selection.items.map (·.name)

def labels (selection : InsertedSelection) : List String := selection.items.filterMap (·.label)

/-- The columns that a label after a name is for. A function that is never a column is one only if it is a label
as well. -/
def means (selection : InsertedSelection) (source : String) : List String :=
  if Keyword.isIgnoredFunction (Keyword.normalForm source) && !selection.labels.contains source then [] else [source]

/-- The labels with what they stand for. -/
def aliases (selection : InsertedSelection) : NameMap AliasTarget :=
  NameMap.ofFirstPairs
    ((selection.items.filterMap fun item => item.label.map (·, selection.means item.source)).filterMap labelTarget?)

structure Known (selection : InsertedSelection) : Prop where
  table : IsUnquoted selection.table
  origin : IsUnquoted selection.origin
  columns : ∀ item ∈ selection.items, IsColumnName item.name
  sources : ∀ item ∈ selection.items, IsUnquoted item.source
  labels : ∀ item ∈ selection.items, ∀ label ∈ item.label, IsUnquoted label

end InsertedSelection

namespace Proofs.InsertedSelections
open Lexeme PlainText SelectList ColumnListStatement Selections TextParts JoinKeywords FromClauses Clauses
open Spots TableSpots MentionSpots
  InsertTargets LabelledItems Unnested BareFacts NestingRun
open ClauseQueries (fromTable)
open ClauseColumns (names_fromTable finds_fromTable not_mem_of_reserved)

def sourceLexemes (item : InsertedColumn) : List Lexeme :=
  ofName item.source true :: (item.label.map fun label => [ofKeyword "AS" true, ofName label true]).getD []

def sourcesLexemes (first : InsertedColumn) (more : List InsertedColumn) : List Lexeme :=
  sourceLexemes first ++ more.flatMap fun item => comma :: sourceLexemes item

end Proofs.InsertedSelections

namespace InsertedSelection
open Proofs.InsertedSelections Proofs.InsertTargets Proofs.ClauseQueries Lexeme

/-- The query, without the table that it selects from. -/
def queryLexemes (selection : InsertedSelection) : List Lexeme :=
  ofKeyword "SELECT" true :: sourcesLexemes selection.first selection.more

def lexemes (selection : InsertedSelection) : List Lexeme :=
  headLexemes "INSERT" selection.table selection.first.name (selection.more.map (·.name)) ++
    (selection.queryLexemes ++ fromTable selection.origin)

def text (selection : InsertedSelection) : String := String.ofList (Lexeme.written selection.lexemes)

end InsertedSelection

namespace Proofs.InsertedSelections
open Lexeme PlainText SelectList ColumnListStatement Selections TextParts JoinKeywords FromClauses Clauses
open Spots TableSpots MentionSpots
  InsertTargets LabelledItems Unnested BareFacts NestingRun
open ClauseQueries (fromTable)
open ClauseColumns (names_fromTable finds_fromTable not_mem_of_reserved)

example :
    InsertedSelection.text { table := "t", origin := "u", first := ⟨"a", "x", some "a"⟩, more := [⟨"b", "y", none⟩] } =
    "INSERT INTO t (a, b) SELECT x AS a, y FROM u" := by decide

section Text

variable {selection : InsertedSelection} {item : InsertedColumn} {lexeme : Lexeme}

theorem mem_sourceLexemes (member : lexeme ∈ sourceLexemes item) :
    (∃ name apart, lexeme = ofName name apart) ∨ lexeme = ofKeyword "AS" true := by
  rcases List.mem_cons.mp member with rfl | later
  · exact .inl ⟨_, _, rfl⟩
  · cases label : item.label with
    | none => rw [label] at later; cases later
    | some name =>
      rw [label] at later
      rcases List.mem_cons.mp later with rfl | last
      · exact .inr rfl
      · exact .inl ⟨name, true, List.mem_singleton.mp last⟩

/-- The query consists of keywords that stand alone, names and commas. -/
theorem mem_queryLexemes (member : lexeme ∈ selection.queryLexemes ++ fromTable selection.origin) :
    (∃ name apart, lexeme = ofName name apart) ∨ lexeme = comma ∨ ∃ word ∈ ["SELECT", "AS", "FROM"],
    lexeme = ofKeyword word true := by
  have single {item : InsertedColumn} (inside : lexeme ∈ sourceLexemes item) :
      (∃ name apart, lexeme = ofName name apart) ∨ lexeme = comma ∨
      ∃ word ∈ ["SELECT", "AS", "FROM"], lexeme = ofKeyword word true :=
    (mem_sourceLexemes inside).imp_right fun as => .inr ⟨"AS", by decide, as⟩
  rcases List.mem_append.mp member with query | source
  · rcases List.mem_cons.mp query with rfl | list
    · exact .inr (.inr ⟨"SELECT", by decide, rfl⟩)
    · rcases List.mem_append.mp list with first | others
      · exact single first
      · obtain ⟨item, -, inside⟩ := List.mem_flatMap.mp others
        rcases List.mem_cons.mp inside with rfl | here
        · exact .inr (.inl rfl)
        · exact single here
  · rcases List.mem_cons.mp source with rfl | table
    · exact .inr (.inr ⟨"FROM", by decide, rfl⟩)
    · exact .inl ⟨selection.origin, true, List.mem_singleton.mp table⟩

theorem part_source (source : IsUnquoted item.source) (label : ∀ label ∈ item.label, IsUnquoted label) :
    Part false (sourceLexemes item) := by
  have name : Part false [ofName item.source true] := part_name source.spelled source.free rfl
  have as : Part false [ofKeyword "AS" true] := part_keyword (by decide) (by decide)
  unfold sourceLexemes
  cases found : item.label with
  | none => exact name
  | some text =>
    have known := label text found
    exact name.append (as.append (part_name known.spelled known.free rfl))

theorem readable_selection (known : selection.Known) : Readable selection.lexemes := by
  have keyword {word : String} (listed : word ∈ ["SELECT", "FROM"]) : Part false [ofKeyword word true] := by
    have facts : ∀ word ∈ ["SELECT", "FROM"], isIdentifier word.toList = true ∧
        Keyword.isReserved (upper word) = true := by decide
    exact part_keyword (facts word listed).1 (facts word listed).2
  have source (item : InsertedColumn) (member : item ∈ selection.items) : Part false (sourceLexemes item) :=
    part_source (known.sources item member) (known.labels item member)
  have columns : ∀ name ∈ selection.first.name :: selection.more.map (·.name), IsUnquoted name := by
    intro name member
    obtain ⟨item, inside, rfl⟩ := List.mem_map.mp (List.map_cons.symm ▸ member : name ∈ selection.items.map (·.name))
    exact (known.columns item inside).unquoted
  have list : Part false (sourcesLexemes selection.first selection.more) :=
    (source selection.first List.mem_cons_self).append
      (part_flatMap fun item member => part_comma.append (source item (List.mem_cons_of_mem _ member)))
  have query : Part false (selection.queryLexemes ++ fromTable selection.origin) :=
    ((keyword (by decide)).append list).append
      ((keyword (by decide)).append (part_name known.origin.spelled known.origin.free rfl))
  have head := @part_head "INSERT" selection.table _ _ (by decide) known.table columns
  refine (head.append query).readable fun lexeme found => ?_
  cases found
  exact ⟨rfl, nofun⟩

/-- No keyword is part of another, and none is WITH. -/
theorem lexeme_facts (member : lexeme ∈ selection.lexemes) : Alone lexeme ∧ lexeme.reads "WITH" = false := by
  have keyword : ∀ word ∈ ["INSERT", "SELECT", "AS", "FROM"], Alone (ofKeyword word true) ∧
      (ofKeyword word true).reads "WITH" = false := by
    unfold Alone
    decide
  have others : ∀ lexeme ∈ [ofKeyword "INTO" true, opening, comma, closing], Alone lexeme ∧
      lexeme.reads "WITH" = false := by
    unfold Alone
    decide
  have name (name : String) (apart : Bool) : Alone (ofName name apart) ∧ (ofName name apart).reads "WITH" = false :=
    ⟨⟨rfl, rfl⟩, rfl⟩
  rcases List.mem_append.mp member with head | query
  · rcases mem_headLexemes head with ⟨text, apart, rfl⟩ | rfl | mark
    · exact name text apart
    · exact keyword "INSERT" (by decide)
    · exact others lexeme mark
  · rcases mem_queryLexemes query with ⟨text, apart, rfl⟩ | rfl | ⟨word, known, rfl⟩
    · exact name text apart
    · exact others comma (by decide)
    · exact keyword word (List.mem_cons_of_mem _ known)

theorem merge_selection (selection : InsertedSelection) : mergeCompounds selection.lexemes = selection.lexemes := by
  have merged := mergeCompounds_alone (fun lexeme member => (@lexeme_facts selection lexeme member).1) []
  have nothing : mergeCompounds [] = [] := by
    unfold mergeCompounds
    rw [compounds]
    rfl
  rwa [nothing, List.append_nil] at merged

theorem flat_query (member : lexeme ∈ selection.queryLexemes ++ fromTable selection.origin) : lexeme.side? = none := by
  rcases mem_queryLexemes member with ⟨text, apart, rfl⟩ | rfl | ⟨word, known, rfl⟩
  · rfl
  · decide
  · rfl

theorem shallow_selection (selection : InsertedSelection) : Shallow (sides selection.lexemes) 1 := by
  have head := @shallow_head "INSERT" selection.table selection.first.name (selection.more.map (·.name))
  have query : Shallow (sides (selection.queryLexemes ++ fromTable selection.origin)) 1 :=
    shallow_level (fun lexeme member => flat_query member) 1
  rw [InsertedSelection.lexemes, sides_append]
  exact head.append query

variable {limits : Limits}

theorem exists_reading_selection (known : selection.Known) (deep : 1 ≤ limits.maxNestingDepth)
    (few : selection.lexemes.length ≤ limits.maxTokens) :
    ∃ sequence, Reading limits selection.text selection.lexemes sequence :=
  exists_reading (readable_selection known) (merge_selection selection) (shallow_selection selection) deep few

variable {sequence : TokenSequence} (reading : Reading limits selection.text selection.lexemes sequence)
include reading

theorem kind_selection : StatementKind.ofTokens sequence = .ok .insert :=
  @kind_inserting limits sequence false _ _ reading

/-- The only parenthesis ends in front of SELECT. -/
theorem bodiless_selection : Subquery.bodies sequence = {} := by
  let names := selection.more.map (·.name)
  let front := [ofKeyword "INSERT" true, ofKeyword "INTO" true, ofName selection.table true] ++
    opening :: (ofName selection.first.name false :: names.flatMap fun name => [comma, ofName name true])
  let query := selection.queryLexemes ++ fromTable selection.origin
  have split : selection.lexemes = front ++ closing :: query := by
    simp [InsertedSelection.lexemes, headLexemes, listedLexemes, front, names, query]
  have unclosed {lexeme : Lexeme} (flat : lexeme.side? = none) : lexeme.isPunctuation ")" = false :=
    Bool.eq_false_iff.mpr fun closes => by cases flat.symm.trans (side?_eq_closing.mpr closes)
  have begins : ∀ lexeme ∈ front, lexeme.isPunctuation ")" = false := by
    have words : ∀ lexeme ∈ [ofKeyword "INSERT" true, ofKeyword "INTO" true, ofName selection.table true],
        lexeme.isPunctuation ")" = false :=
      List.forall_mem_cons.mpr ⟨rfl, List.forall_mem_cons.mpr ⟨rfl, List.forall_mem_singleton.mpr rfl⟩⟩
    exact List.forall_mem_append.mpr ⟨words, List.forall_mem_cons.mpr ⟨by decide, fun lexeme inside =>
      unclosed (staying_list _ names lexeme inside).1⟩⟩
  have ends : query.IsChain Unnamed := by
    have open' : ∀ lexeme ∈ query, lexeme.isPunctuation ")" = false := fun lexeme member => unclosed (flat_query member)
    have whole := chain_open open' (.nil : List.IsChain Unnamed [])
    rwa [List.append_nil] at whole
  refine bodiless_of_chain reading ?_
  rw [split]
  exact chain_open begins (.cons_cons (fun _ => rfl) ends)

end Text

section Query

variable {scope : AliasDeclaration.Scope} {context : Context} {before after : List Lexeme}
    {last : Lexeme} {item : InsertedColumn}

/-- An item of the query begins after the lexeme. -/
structure StartsItem (context : Context) (last : Lexeme) (before : List Lexeme) : Prop where
  clause : context.clause = some "SELECT"
  opened : context.opened = []
  level : openings (last :: before) = []
  fresh : Fresh last
  noDot : last.isDot = false
  separates : last.separates before = true

theorem StartsItem.frames (starts : StartsItem context last before) :
    ∀ frame ∈ context.opened.head?, frame.kind ≠ .withColumns ∧ frame.kind ≠ .createTableColumns := by
  rw [starts.opened]
  nofun

theorem columnsAt_source {names : List String} (knows : Knows scope.known names)
    (noDot : last.isDot = false) (source : String) :
    scope.columnsAt (last :: before) (ofName source true) (some (ofKeyword "AS" true)) =
      if source ∈ names ∨ source ∈ scope.names then [source] else [] := by
  have spelled : nameBefore (ofName source true :: last :: before) = source :=
    nameBefore_undotted (undotted_cons noDot before) _
  have found := knows source
  unfold AliasDeclaration.Scope.columnsAt
  rw [spelled]
  by_cases met : source ∈ names
  · rw [if_pos met] at found
    simp [met, found, NameMap.contains, ofName, isName, isWildcard, show (ofKeyword "AS" true).isDot = false from rfl]
  · rw [if_neg met] at found
    simp [met, found, NameMap.contains, ofName, isName, isWildcard, show (ofKeyword "AS" true).isDot = false from rfl]

/-- A name is mentioned, and its label is declared for it. -/
theorem names_source (starts : StartsItem context last before) (halts : Halts after) {columns : List String}
    (told : scope.columnsAt (last :: before) (ofName item.source true) (some (ofKeyword "AS" true)) = columns)
    (once : columns.Nodup) : Names scope context (last :: before) (sourceLexemes item) after
      (Column.Mention.ofNames scope.names .select [item.source])
          (item.label.map fun label => ⟨label, some .select, columns⟩).toList := by
  have opened : Section.OpenedBy .select "SELECT" := ⟨by decide, by decide, rfl⟩
  have spelled : nameBefore (ofName item.source true :: last :: before) = item.source :=
    nameBefore_undotted (undotted_cons starts.noDot before) _
  have source {after : List Lexeme} (halts : Halts after) :
      Names scope context (last :: before) [ofName item.source true] after
      (Column.Mention.ofNames scope.names .select [item.source]) [] := by
    have clause : Spot.clause ⟨context, last :: before, ofName item.source true, after⟩ = "SELECT" := by
      rw [Spot.clause, starts.clause]
      rfl
    have place : Spot.section? ⟨context, last :: before, ofName item.source true, after⟩ =
        some .select := section?_of_clause opened clause
    have named :=
      @names_single scope context before after last true item.source starts.fresh halts starts.frames .select place
    rw [spelled] at named
    rw [Column.Mention.ofNames_cons]
    exact named.append .nil
  unfold sourceLexemes
  cases label : item.label with
  | none => exact source halts
  | some text =>
    let as := ofKeyword "AS" true
    let query := (context.step (ofName item.source true)).step as
    have word : as.normalized = "AS" := normalForm_as
    have reads : as.reads "AS" = true := by rw [reads, word]; rfl
    have apart : (as.isKeyword && Keyword.precedesColumns as.normalized) = false := by rw [word]; rfl
    have staying : (ofName item.source true).Staying := staying_of_wordless ⟨rfl, rfl⟩
    have resumes : context.Resumes query :=
      (resumes_step staying).trans (resumes_step ⟨rfl, fun _ => by rw [word]; rfl⟩)
    have ends :
        scope.itemBefore (some (ofName text true)) (as :: ofName item.source true :: last :: before) = columns := by
      have noMark : as.separates (ofName item.source true :: last :: before) = false ∧
          (ofName item.source true).separates (last :: before) = false :=
        ⟨by rw [separates, apart]; simp [isPunctuation, as, ofKeyword],
          by simp [separates, isPunctuation, isKeyword, ofName]⟩
      have nothing : scope.columnsAt (ofName item.source true :: last :: before) as (some (ofName text true)) = [] := by
        simp [AliasDeclaration.Scope.columnsAt, isName, isWildcard, as, ofKeyword]
      simp [AliasDeclaration.Scope.itemBefore, noMark.1, noMark.2, nothing, starts.separates, told, as]
    have label :=
      @names_label scope query (ofName item.source true :: last :: before) after true text "SELECT" .select opened
      (resumes.clause.trans starts.clause) (resumes.opened.trans starts.opened) starts.level as reads (.inl rfl) halts
    rw [ends, distinct_of_nodup once] at label
    have begins :
        Names scope context (last :: before) [ofName item.source true] (as :: [ofName text true] ++ after) _ [] :=
      source ⟨rfl, rfl⟩
    have whole := begins.append (.skip ⟨rfl, rfl⟩ label)
    rw [List.append_nil] at whole
    exact whole

theorem staying_source (item : InsertedColumn) : ∀ lexeme ∈ sourceLexemes item, lexeme.Staying := by
  intro lexeme member
  rcases mem_sourceLexemes member with ⟨name, apart, rfl⟩ | rfl
  · exact ⟨rfl, nofun⟩
  · exact ⟨rfl, fun _ => by decide⟩

/-- The names of the query are mentioned one after the other, and each label is declared for the name before it. -/
theorem names_sources {first : InsertedColumn} {more : List InsertedColumn} (starts : StartsItem context last before)
    (halts : Halts after)
    {means : String → List String} (told : ∀ item ∈ first :: more, ∀ last before, last.isDot = false →
      scope.columnsAt (last :: before) (ofName item.source true) (some (ofKeyword "AS" true)) = means item.source)
    (once : ∀ source, (means source).Nodup) : Names scope context (last :: before) (sourcesLexemes first more) after
      (Column.Mention.ofNames scope.names .select ((first :: more).map (·.source)))
      ((first :: more).filterMap fun item => item.label.map fun label => ⟨label, some .select, means item.source⟩) := by
  induction more generalizing context before last first with
  | nil =>
    have here := names_source starts halts (told first List.mem_cons_self last before starts.noDot) (once first.source)
    rw [sourcesLexemes, List.flatMap_nil, List.append_nil, List.filterMap_cons]
    cases label : first.label <;> simpa [label] using here
  | cons next more ih =>
    let passed := (sourceLexemes first).reverse ++ last :: before
    have here := @names_source scope context before (comma :: sourcesLexemes next more ++ after) last first starts
      ⟨rfl, show comma.isPunctuation "(" = false by decide⟩ _
        (told first List.mem_cons_self last before starts.noDot) (once first.source)
    have resumes : context.Resumes (context.after (sourceLexemes first)) := resumes_after (staying_source first)
    have mark : comma.side? = none := by decide
    have level : openings passed = [] :=
      ColumnSpots.openings_eq_nil starts.opened starts.level (resumes.opened.trans starts.opened)
    have restarts : StartsItem ((context.after (sourceLexemes first)).step comma) comma passed := by
      have staying : comma.Staying := staying_of_wordless ⟨mark, rfl⟩
      have again := resumes.trans (resumes_step staying)
      refine ⟨again.clause.trans starts.clause, again.opened.trans starts.opened, ?_, fresh_comma, rfl, ?_⟩
      · rw [openings, mark]
        exact level
      · rw [separates, level]
        decide
    have whole :=
      here.append (.skip ⟨rfl, rfl⟩ (ih restarts fun item member => told item (List.mem_cons_of_mem _ member)))
    have labels :
        (first :: next :: more).filterMap
          (fun item => item.label.map fun label => (⟨label, some .select, means item.source⟩ : LabelledItem)) =
        (first.label.map fun label => ⟨label, some .select, means first.source⟩).toList ++
          (next :: more).filterMap fun item => item.label.map fun label =>
              ⟨label, some .select, means item.source⟩ := by
      rw [List.filterMap_cons]
      cases first.label <;> rfl
    rw [labels]
    have mentions : Column.Mention.ofNames scope.names .select ((first :: next :: more).map (·.source)) =
        Column.Mention.ofNames scope.names .select [first.source] ++
          Column.Mention.ofNames scope.names .select ((next :: more).map (·.source)) :=
        Column.Mention.ofNames_append scope.names .select [first.source] _
    rw [mentions]
    exact whole

end Query

section Statement

variable {selection : InsertedSelection}

def mentions (selection : InsertedSelection) : List Column.Mention :=
  Column.Mention.ofNames (distinct selection.labels) .insert selection.columns ++
    Column.Mention.ofNames (distinct selection.labels) .select (selection.items.map (·.source))

/-- The labels with the names that they are declared for. -/
def labelled (selection : InsertedSelection) : List LabelledItem :=
  selection.items.filterMap fun item => item.label.map fun label => ⟨label, some .select, selection.means item.source⟩

theorem nodup_means (selection : InsertedSelection) (source : String) : (selection.means source).Nodup := by
  unfold InsertedSelection.means
  split
  · exact List.nodup_nil
  · exact List.nodup_singleton source

theorem counted_of_mem {aliasNames names : List String} {sec : Section} {mention : Column.Mention} {spelled : String}
    (member : mention ∈ Column.Mention.ofNames aliasNames sec names) (column : mention.column? = some spelled) :
    Keyword.isIgnoredFunction (Keyword.normalForm spelled) = false := by
  obtain ⟨name, kept, rfl⟩ := List.mem_map.mp member
  have counted :
      Keyword.isIgnoredFunction (Keyword.normalForm name) = false := by simpa using (List.mem_filter.mp kept).2
  unfold Column.Mention.ofName at column
  split at column
  · cases column
  · cases column
    exact counted

/-- A name is met as a column or as a label, unless it is the name of a function that is neither. -/
theorem means_eq {scope : AliasDeclaration.Scope} (names : scope.names = distinct selection.labels)
    (knows : Knows scope.known ((mentions selection).filterMap Column.Mention.column?)) :
    ∀ item ∈ selection.items, ∀ last before, last.isDot = false →
      scope.columnsAt (last :: before) (ofName item.source true) (some (ofKeyword "AS" true)) =
          selection.means item.source := by
  intro item member last before noDot
  rw [columnsAt_source knows noDot, names, InsertedSelection.means]
  have labelled : item.source ∈ distinct selection.labels ↔ selection.labels.contains item.source = true := by
    rw [mem_distinct, List.contains_iff_mem]
  cases ignored : Keyword.isIgnoredFunction (Keyword.normalForm item.source) with
  | true =>
    have unmet : item.source ∉ (mentions selection).filterMap Column.Mention.column? := by
      intro met
      obtain ⟨mention, among, spelled⟩ := List.mem_filterMap.mp met
      have counted : Keyword.isIgnoredFunction (Keyword.normalForm item.source) = false := by
        rcases List.mem_append.mp among with inserted | selected
        · exact counted_of_mem inserted spelled
        · exact counted_of_mem selected spelled
      exact Bool.false_ne_true (counted.symm.trans ignored)
    cases label : selection.labels.contains item.source with
    | true => rw [if_pos (.inr (labelled.mpr label))]; rfl
    | false =>
      rw [if_neg
        (fun either => either.elim unmet fun inside => Bool.false_ne_true (label.symm.trans (labelled.mp inside)))]; rfl
  | false =>
    have met : item.source ∈ (mentions selection).filterMap Column.Mention.column? ∨
        item.source ∈ distinct selection.labels := by
      have among : Column.Mention.ofName (distinct selection.labels) item.source .select ∈ mentions selection := by
        refine List.mem_append_right _ (List.mem_map_of_mem (List.mem_filter.mpr ⟨List.mem_map_of_mem member, ?_⟩))
        rw [ignored]
        rfl
      by_cases label : item.source ∈ distinct selection.labels
      · exact .inr label
      · have column :
            Column.Mention.ofName (distinct selection.labels) item.source .select = .column item.source .select :=
          if_neg (by simp [label])
        exact .inl (List.mem_filterMap.mpr ⟨_, among, by rw [column]; rfl⟩)
    rw [if_pos met]
    rfl

theorem names_selection {scope : AliasDeclaration.Scope} (names : scope.names = distinct selection.labels)
    (knows : Knows scope.known ((mentions selection).filterMap Column.Mention.column?)) :
    Names scope {} [] selection.lexemes [] (mentions selection) (labelled selection) := by
  let columns := selection.more.map (·.name)
  let head := headLexemes "INSERT" selection.table selection.first.name columns
  let select := ofKeyword "SELECT" true
  have resumes : Context.Resumes { clause := some "INTO" } (Context.after {} head) :=
    resumes_head (by decide) selection.table _ columns
  have begins : Names scope {} [] head (selection.queryLexemes ++ fromTable selection.origin ++ []) _ [] :=
    names_head (by decide) _
  have level : openings (head.reverse ++ []) = [] := ColumnSpots.openings_eq_nil rfl rfl resumes.opened
  have word : select.normalized = "SELECT" := normalForm_select
  obtain ⟨clause, -, opened⟩ := step_significant (Context.after {} head) select rfl (by rw [word]; decide)
  rw [word] at clause
  have starts : StartsItem ((Context.after {} head).step select) select (head.reverse ++ []) := by
    have reads : select.reads "AS" = false ∧ select.reads "END" = false := by decide
    refine ⟨clause, opened.trans resumes.opened, level, ⟨⟨reads.1, rfl, rfl, rfl⟩, rfl, reads.2⟩, rfl, ?_⟩
    rw [separates, level, word]
    decide
  have halts : Halts (fromTable selection.origin ++ []) := ⟨rfl, rfl⟩
  have list : Names scope ((Context.after {} head).step select) (select :: (head.reverse ++ []))
      (sourcesLexemes selection.first selection.more) (fromTable selection.origin ++ []) _ _ :=
    names_sources starts halts (means_eq names knows) (nodup_means selection)
  have query :
      Names scope (Context.after {} head) (head.reverse ++ []) selection.queryLexemes
          (fromTable selection.origin ++ []) _ _ :=
    .skip ⟨rfl, rfl⟩ list
  have closed : ((Context.after {} head).after selection.queryLexemes).opened = [] := by
    refine (opened_after fun lexeme member => ?_).trans resumes.opened
    exact @flat_query selection lexeme (List.mem_append_left _ member)
  have whole := begins.append (query.append (names_fromTable closed selection.origin))
  rw [names] at whole
  simp only [List.append_nil, List.nil_append] at whole
  have first : selection.columns = selection.first.name :: columns := rfl
  rw [mentions, first]
  exact whole

theorem finds_selection {tables : List String} (unquoted : ∀ table ∈ tables, IsUnquoted table) :
    Finds tables {} [] selection.lexemes [] [selection.table, selection.origin] [] := by
  let head := headLexemes "INSERT" selection.table selection.first.name (selection.more.map (·.name))
  let select := ofKeyword "SELECT" true
  let query := selection.queryLexemes
  have marks : ∀ mark ∈ ["INTO", "(", ","], mark ∉ tables := by
    have words :
        ∀ mark ∈ ["INTO", "(", ","], ¬(isIdentifier mark.toList = true ∧ Keyword.isReserved (upper mark) = false) := by
      decide
    exact fun mark listed member => words mark listed ⟨(unquoted mark member).spelled, (unquoted mark member).free⟩
  have begins : Finds tables {} [] head (query ++ fromTable selection.origin ++ []) [selection.table] [] :=
    finds_head (by decide) marks _
  have resumes : Context.Resumes { clause := some "INTO" } (Context.after {} head) :=
    resumes_head (by decide) selection.table selection.first.name (selection.more.map (·.name))
  have word : select.normalized = "SELECT" := normalForm_select
  obtain ⟨clause, -, opened⟩ := step_significant (Context.after {} head) select rfl (by rw [word]; decide)
  have avoids : ((Context.after {} head).step select).Avoids Keyword.precedesTables := by
    refine ⟨?_, ?_⟩
    · rw [clause, word]
      decide
    · rw [opened, resumes.opened]
      exact List.forall_mem_nil _
  have staying : ∀ lexeme ∈ sourcesLexemes selection.first selection.more, lexeme.Staying := by
    intro lexeme member
    rcases List.mem_append.mp member with first | others
    · exact staying_source _ lexeme first
    · obtain ⟨item, -, inside⟩ := List.mem_flatMap.mp others
      rcases List.mem_cons.mp inside with rfl | here
      · exact ⟨by decide, nofun⟩
      · exact staying_source item lexeme here
  have list :
      Finds tables (Context.after {} head) (head.reverse ++ []) query (fromTable selection.origin ++ []) [] [] :=
    .skip (silent_of_other rfl) (.avoiding avoids fun lexeme member => avoids_of_staying (staying lexeme member))
  have undotted : ∀ last ∈ (query.reverse ++ (head.reverse ++ [])).head?, last.isDot = false := by
    intro last found
    rw [List.head?_append_of_ne_nil _ (by simp [query, InsertedSelection.queryLexemes])] at found
    have member : last ∈ query := List.mem_reverse.mp (List.mem_of_mem_head? found)
    rcases mem_queryLexemes (List.mem_append_left _ member) with ⟨name, apart, rfl⟩ | rfl | ⟨word, -, rfl⟩ <;> rfl
  have unlisted : "FROM" ∉ tables := not_mem_of_reserved (by decide) unquoted
  exact begins.append (list.append (finds_fromTable undotted unlisted rfl selection.origin))

end Statement

section Columns

variable {selection : InsertedSelection}

theorem mem_labels_of_alias {name : String} (target : selection.aliases.contains name) : name ∈ selection.labels := by
  rw [NameMap.contains_iff, InsertedSelection.aliases, NameMap.keys_ofFirstPairs, mem_distinct] at target
  obtain ⟨pair, targeted, rfl⟩ := List.mem_map.mp target
  obtain ⟨label, declared, told⟩ := List.mem_filterMap.mp targeted
  obtain ⟨item, member, here⟩ := List.mem_filterMap.mp declared
  obtain ⟨text, found, rfl⟩ := Option.map_eq_some_iff.mp here
  obtain ⟨column, -, rfl⟩ := Option.map_eq_some_iff.mp told
  exact List.mem_filterMap.mpr ⟨item, member, found⟩

/-- A label stands for one name at most. -/
theorem renames (selection : InsertedSelection) : Alias.Renames selection.aliases := by
  intro name target found
  have entry := NameMap.mem_entries_ofFirstPairs (NameMap.mem_entries_of_find? found)
  obtain ⟨label, declared, told⟩ := List.mem_filterMap.mp entry
  obtain ⟨item, -, here⟩ := List.mem_filterMap.mp declared
  obtain ⟨text, -, rfl⟩ := Option.map_eq_some_iff.mp here
  obtain ⟨stands, means, same⟩ := Option.map_eq_some_iff.mp told
  obtain ⟨-, rfl⟩ := Prod.mk.inj same
  unfold InsertedSelection.means at means
  split at means
  · cases means
  · obtain ⟨-, column⟩ := Option.ite_none_left_eq_some.mp means
    exact ⟨item.source, (Option.some.inj column).symm⟩

variable (known : selection.Known)
include known

/-- The uses of columns and of labels in the statement, as far as they are in the insertion. -/
theorem uses_inserted :
    SectionMap.namesIn ((mentions selection).filterMap (Column.Mention.columnUse? selection.aliases)) .insert =
        selection.columns.filter (!selection.aliases.contains ·) ∧
      SectionMap.namesIn ((mentions selection).filterMap (Column.Mention.aliasUse? selection.aliases)) .insert =
        selection.columns.filter selection.aliases.contains := by
  have labels (name : String) (target : selection.aliases.contains name = true) :
      (distinct selection.labels).contains name = true ∧ '.' ∉ name.toList := by
    have member := mem_labels_of_alias target
    obtain ⟨item, inside, label⟩ := List.mem_filterMap.mp member
    exact ⟨List.contains_iff_mem.mpr (mem_distinct.mpr member), bare_of_unquoted (known.labels item inside name label)⟩
  have columns : selection.columns.filter (fun name => !Keyword.isIgnoredFunction (Keyword.normalForm name)) =
      selection.columns := by
    refine List.filter_eq_self.mpr fun name member => ?_
    obtain ⟨item, inside, rfl⟩ := List.mem_map.mp member
    rw [(known.columns item inside).column]
    rfl
  obtain ⟨inserted, replaced⟩ :=
    @Column.Mention.uses_ofNames selection.aliases (distinct selection.labels) selection.columns
    (fun name _ => labels name) .insert
  obtain ⟨selected, renamed⟩ :=
    @Column.Mention.uses_ofNames selection.aliases (distinct selection.labels) (selection.items.map (·.source))
    (fun name _ => labels name) .select
  have sections : Section.select ≠ .insert := nofun
  rw [mentions, List.filterMap_append, List.filterMap_append, inserted, replaced, selected,
    renamed, SectionMap.namesIn_append, SectionMap.namesIn_append, SectionMap.namesIn_map,
    SectionMap.namesIn_map, SectionMap.namesIn_map, SectionMap.namesIn_map, if_pos rfl, if_pos rfl,
      if_neg sections, if_neg sections, List.append_nil, List.append_nil, columns]
  exact ⟨rfl, rfl⟩

variable {limits : Limits}

theorem unaliased_selection {sequence : TokenSequence}
    (reading : Reading limits selection.text selection.lexemes sequence) :
    Table.aliases sequence (Table.names sequence []) = {} := by
  have unquoted : ∀ table ∈ distinct [selection.table, selection.origin], IsUnquoted table := by
    intro table member
    rcases List.mem_cons.mp (mem_distinct.mp member) with rfl | last
    · exact known.table
    · exact List.mem_singleton.mp last ▸ known.origin
  have start : Context.start selection.lexemes = {} := rfl
  have finds := @finds_selection selection _ unquoted
  have tables : Table.names sequence [] = distinct [selection.table, selection.origin] := by
    rw [names_eq reading.annotated, start, finds.names]
    exact List.filter_eq_self.mpr fun _ _ => rfl
  rw [tables, aliases_eq reading.annotated, start, finds.aliases]
  rfl

/-- The facts of the statement, as far as the columns of the insertion go. -/
theorem exists_facts_selection {sequence : TokenSequence}
    (reading : Reading limits selection.text selection.lexemes sequence) :
    ∃ facts, (Query.ofText selection.text limits).facts = .ok facts ∧
      facts.columnsBySection.listed .insert =
        addAllNew (distinct (selection.columns.filter (!selection.aliases.contains ·)))
        (((distinct selection.columns).filter selection.aliases.contains).flatMap (Alias.resolve selection.aliases)) ∧
      ∀ column ∈ facts.columnsBySection.listed .insert, column ∈ facts.columns := by
  have bodiless := bodiless_selection reading
  have named : (labelled selection).map (·.name) = selection.labels := names_selected _ _ _
  have names (met : NameMap (List String)) (knows : Knows met ((mentions selection).filterMap Column.Mention.column?)) :
      Names ⟨met, distinct ((labelled selection).map (·.name))⟩ {} [] selection.lexemes []
          (mentions selection) (labelled selection) := by
    rw [named]
    exact @names_selection selection ⟨met, distinct selection.labels⟩ rfl knows
  have declared :=
    (sections_labelled reading bodiless names).trans
      (sections_selected selection.items (·.label) (selection.means ·.source))
  have clauseless := withClause_bare reading.annotated fun lexeme member => (@lexeme_facts selection lexeme member).2
  have kind : StatementKind.insert ≠ .create := by decide
  have read := facts_labelled reading bodiless names (kind_selection reading) kind clauseless
    fun name _ => unaliased_selection known reading ▸ meaning_bare name
  have pairs : (labelled selection).map (fun item => (item.name, item.columns)) = _ := pairs_selected _ _ _
  rw [pairs] at read
  change _ = Except.ok (Facts.completed (Facts.read sequence {} selection.aliases _)) at read
  refine ⟨_, read, ?_, fun column member => mem_columns_completed member⟩
  have elsewhere : Section.select ≠ .insert := by decide
  obtain ⟨columns, labels⟩ := uses_inserted known
  have replaced : (distinct (selection.columns.filter selection.aliases.contains)).filter selection.aliases.contains =
      (distinct selection.columns).filter selection.aliases.contains := by
    rw [← filter_distinct, List.filter_filter]
    simp only [Bool.and_self]
  rw [listed_bare sequence _ _ declared, columns, SectionMap.namesIn_append, SectionMap.namesIn_map,
    if_neg elsewhere, List.nil_append, labels, replaced]

variable (deep : 1 ≤ limits.maxNestingDepth) (few : selection.lexemes.length ≤ limits.maxTokens)
include deep few

/-- The columns of the insertion are those that are called like no label that stands for another name, and then
what the others stand for. These are the columns as they are listed only if each of them stands for itself, and
no column follows one that is such a label. -/
theorem inserted_columns_iff : ∃ facts, (Query.ofText selection.text limits).facts = .ok facts ∧
    facts.columnsBySection.find? .insert =
      some (addAllNew (distinct (selection.columns.filter (!selection.aliases.contains ·)))
      (((distinct selection.columns).filter selection.aliases.contains).flatMap (Alias.resolve selection.aliases))) ∧
    ((facts.columnsBySection.find? .insert = some (distinct selection.columns) ∧
      ∀ column ∈ selection.columns, column ∈ facts.columns) ↔
      (∀ column ∈ selection.columns, Alias.resolve selection.aliases column = [column]) ∧
        (distinct selection.columns).Pairwise
        fun before after => selection.aliases.contains before → selection.aliases.contains after) := by
  obtain ⟨sequence, reading⟩ := exists_reading_selection known deep few
  obtain ⟨facts, read, listed, columns⟩ := exists_facts_selection known reading
  have resolved := Renaming.exists_resolved (renames selection)
  have kept := @Renaming.replaced_eq_iff _ _ selection.aliases.contains _ resolved selection.columns
  have more :=
    @Renaming.replaced_ne_nil _ _ selection.aliases.contains
      _ (fun name => (resolved name).imp fun _ stands => stands.1)
    selection.columns selection.first.name List.mem_cons_self
  rw [← listed] at kept more ⊢
  have found : facts.columnsBySection.find? .insert = some (facts.columnsBySection.listed .insert) := by
    obtain ⟨name, member⟩ := List.exists_mem_of_ne_nil _ more
    exact SectionMap.find?_of_listed member
  have itself (column : String) (plain : ¬selection.aliases.contains column) :
      Alias.resolve selection.aliases column = [column] :=
    AliasSubstitution.resolve_of_plain (by simpa [NameMap.contains] using plain)
  refine ⟨facts, read, found, ?_⟩
  rw [found, Option.some_inj]
  constructor
  · rintro ⟨same, -⟩
    obtain ⟨stands, last⟩ := kept.mp same
    refine ⟨fun column member => ?_, last⟩
    by_cases label : selection.aliases.contains column
    · exact stands column member label
    · exact itself column label
  · rintro ⟨stands, last⟩
    have same := kept.mpr ⟨fun column member _ => stands column member, last⟩
    refine ⟨same, fun column member => columns column ?_⟩
    rw [same]
    exact mem_distinct.mpr member

end Columns

/-- Both columns are replaced by the names that they are selected from. -/
theorem inserted_columns_replaced :
    ∃ facts, (Query.ofText "INSERT INTO t (a, b) SELECT x AS a, y AS b FROM u" {}).facts = .ok facts ∧
    facts.columnsBySection.find? .insert = some ["x", "y"] ∧
    ¬(facts.columnsBySection.find? .insert = some ["a", "b"] ∧ ∀ column ∈ ["a", "b"], column ∈ facts.columns) := by
  let selection : InsertedSelection :=
    { table := "t", origin := "u", first := ⟨"a", "x", some "a"⟩, more := [⟨"b", "y", some "b"⟩] }
  have text : selection.text = "INSERT INTO t (a, b) SELECT x AS a, y AS b FROM u" := by decide
  have known : selection.Known := ⟨by decide, by decide, by decide, by decide, by decide⟩
  have deep : 1 ≤ ({} : Limits).maxNestingDepth := by decide
  have few : selection.lexemes.length ≤ ({} : Limits).maxTokens := by decide
  obtain ⟨facts, read, columns, kept⟩ := inserted_columns_iff known deep few
  have entries : selection.aliases.entries = [("a", .column "x"), ("b", .column "y")] := by decide
  have aliases : selection.aliases = ⟨[("a", .column "x"), ("b", .column "y")]⟩ := congrArg NameMap.mk entries
  have listed : selection.columns = ["a", "b"] := rfl
  rw [text] at read
  rw [aliases, listed] at columns kept
  have first : Alias.resolve ⟨[("a", .column "x"), ("b", .column "y")]⟩ "a" = ["x"] := by cbv
  have second : Alias.resolve ⟨[("a", .column "x"), ("b", .column "y")]⟩ "b" = ["y"] := by cbv
  refine ⟨facts, read, columns.trans ?_, fun claimed => ?_⟩
  · have labels :
        (distinct ["a", "b"]).filter (NameMap.contains ⟨[("a", AliasTarget.column "x"), ("b", .column "y")]⟩) =
            ["a", "b"] := by
      decide
    have others :
        ["a", "b"].filter (fun name => !NameMap.contains ⟨[("a", AliasTarget.column "x"), ("b", .column "y")]⟩ name) =
            [] := by
      decide
    rw [labels, others, List.flatMap_cons, List.flatMap_cons, first, second]
    decide
  · have itself := (kept.mp claimed).1 "a" (by decide)
    rw [first] at itself
    exact absurd itself (by decide)

end Proofs.InsertedSelections

end QueryFacts

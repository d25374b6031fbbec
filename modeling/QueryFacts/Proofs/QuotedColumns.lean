import QueryFacts.Proofs.ClauseColumns
import QueryFacts.Proofs.QuotedSelects

/-! The facts of a statement that selects quoted names. In backticks every name is a column, but for those of
functions. Between double quotes they are the same columns, but for names that are keywords or functions as they
are written then. -/

namespace QueryFacts
open Lexeme

/-- A name that is no function. -/
def Lexeme.isColumn (lexeme : Lexeme) : Bool := lexeme.isName && !Keyword.isIgnoredFunction lexeme.normalized

/-- The facts of a statement that selects these columns from `t`. -/
structure Facts.Selects (facts : Facts) (columns : List String) : Prop where
  tables : facts.tables = ["t"]
  columns : facts.columns = distinct columns
  tableAliases : facts.tableAliases = {}
  aliasNames : facts.aliasNames = []
  aliases : facts.aliases = {}

namespace Proofs.QuotedColumns
open Text Spots ColumnSpots MentionSpots TableSpots Clauses Unnested BareFacts MeantColumns ClauseColumns
open QuotedSelects SelectList NestingRun

section Written

variable {bare : Bool} {name : String}

@[simp] theorem value_ofWritten (bare : Bool) (name : String) : (ofWritten bare name).value = name := by
  unfold ofWritten
  split <;> rfl

theorem isColumn_ticked (name : String) : (ofWritten false name).isColumn = !Keyword.isIgnoredFunction name := rfl

theorem word_facts (bare : Bool) (name : String) :
    (ofWritten bare name).isWildcard = false ∧ (ofWritten bare name).side? = none := by
  rcases kind_ofWritten bare name with kind | keyword
  · simp [isWildcard, side?, isPunctuation, kind]
  · have kind : (ofWritten bare name).kind = .keyword := eq_of_beq keyword
    simp [isWildcard, side?, isPunctuation, kind]

/-- The names of functions are in normal form, and none is reserved. -/
theorem ignored_facts (ignored : Keyword.isIgnoredFunction name = true) :
    Keyword.isIgnoredFunction (Keyword.normalForm name) = true ∧ Keyword.isReserved (upper name) = false := by
  have all : ∀ word ∈ Keyword.ignoredFunctions, Keyword.isIgnoredFunction (Keyword.normalForm word) = true ∧
      Keyword.isReserved (upper word) = false := by decide +kernel
  exact all name (List.contains_iff_mem.mp ignored)

/-- Names are harmless where they are columns or not in both ways to write them. -/
theorem isHarmless_iff : IsHarmless name ↔ (ofWritten true name).isColumn = (ofWritten false name).isColumn := by
  rw [isColumn_ticked]
  unfold IsHarmless ofWritten
  cases isPlainIdentifier name.toList with
  | false => exact ⟨fun _ => rfl, fun _ => nofun⟩
  | true =>
    cases reserved : Keyword.isReserved (upper name) with
    | true =>
      have other : Keyword.isIgnoredFunction name = false :=
        Bool.eq_false_iff.mpr fun ignored => absurd ((ignored_facts ignored).2.symm.trans reserved) Bool.false_ne_true
      simp [isColumn, isName, other]
    | false =>
      have known := @ignored_facts name
      have written :
          (⟨.name, name, none, true⟩ : Lexeme).isColumn = !Keyword.isIgnoredFunction (Keyword.normalForm name) := rfl
      simp only [Bool.true_and, if_true, Bool.false_eq_true, if_false, written, true_and, forall_true_left]
      cases ignored : Keyword.isIgnoredFunction name with
      | true => simp [(known ignored).1]
      | false => cases Keyword.isIgnoredFunction (Keyword.normalForm name) <;> simp

/-- Other names are columns in backticks only. -/
theorem columns_of_harmful (harmful : ¬ IsHarmless name) :
    (ofWritten false name).isColumn = true ∧ (ofWritten true name).isColumn = false := by
  have column : (ofWritten false name).isColumn = true := by
    rw [isColumn_ticked, Bool.not_eq_true']
    exact Bool.eq_false_iff.mpr fun ignored => harmful fun _ => ⟨(ignored_facts ignored).2, fun _ => ignored⟩
  rw [isHarmless_iff, column, Bool.not_eq_true] at harmful
  exact ⟨column, harmful⟩

theorem isName_of_harmless (harmless : bare = true → IsHarmless name) : (ofWritten bare name).isName = true := by
  unfold ofWritten
  split
  next plain =>
    rw [Bool.and_eq_true] at plain
    rw [((harmless plain.1) plain.2).1]
    rfl
  next => rfl

theorem harmless_t : IsHarmless "t" := isHarmless_iff.mpr (by decide)

end Written

section Passes

variable {bare : Bool} {name first : String} {more : List String} {last : Lexeme} {context : Context}
    {before after : List Lexeme}

theorem flat_select : ∀ lexeme ∈ ofSelect bare first more, lexeme.side? = none := by
  intro lexeme member
  have marks := (plain_ofSelect member).2.2
  rw [side?, marks "(" (by decide), marks ")" (by decide)]
  rfl

theorem flat_names : ∀ lexeme ∈ ofNames bare first more, lexeme.side? = none := fun lexeme member =>
  flat_select lexeme (List.mem_cons_of_mem _ (List.mem_append_left _ member))

theorem fresh_between : ∀ last ∈ betweenNames, Fresh last ∧ last.isDot = false := by
  intro last member
  simp only [betweenNames, List.mem_cons, List.not_mem_nil, or_false] at member
  rcases member with rfl | rfl | rfl
  · exact ⟨fresh_keyword (by decide), rfl⟩
  · exact ⟨fresh_keyword (by decide), rfl⟩
  · exact ⟨fresh_comma, rfl⟩

/-- A name is mentioned at most once, as what it is, and in a select list it is. -/
theorem names_written (between : last ∈ betweenNames) (halts : Halts after) (opened : context.opened = []) :
    ∃ use? :
        Option (String × Section),
        Names ⟨{}, []⟩ context (last :: before) [ofWritten bare name] after (use?.toList.map mentionOf) [] ∧
      (∀ use ∈ use?, use.1 = name ∧ (ofWritten bare name).isColumn = true) ∧
      (context.clause = some "SELECT" → use? = if (ofWritten bare name).isColumn then
          some (name, .select) else none) := by
  obtain ⟨fresh, noDot⟩ := fresh_between last between
  have noMention (told : Spot.mention? [] [] ⟨context, last :: before, ofWritten bare name, after⟩ = none) :
      Names ⟨{}, []⟩ context (last :: before) [ofWritten bare name] after [] [] :=
    @Names.single ⟨{}, []⟩ _ _ _ _ (declares_of_fresh fresh) (fun _ => fresh.noClosing) none told
  cases isName : (ofWritten bare name).isName with
  | false =>
    have other : (ofWritten bare name).isColumn = false := by rw [isColumn, isName]; rfl
    refine ⟨none, noMention (mention?_of_other isName (word_facts bare name).1), nofun, fun _ => ?_⟩
    rw [other]
    rfl
  | true =>
    have column : (ofWritten bare name).isColumn = !Keyword.isIgnoredFunction (ofWritten bare name).normalized := by
      rw [isColumn, isName]
      rfl
    have told :=
      @mention?_here context before after last (ofWritten bare name) [] isName fresh.toCalm halts
        (by rw [opened]; nofun) [] rfl
    rw [nameBefore_undotted (undotted_cons noDot before), value_ofWritten] at told
    cases ignored : Keyword.isIgnoredFunction (ofWritten bare name).normalized with
    | true =>
      rw [ignored, if_pos rfl] at told
      refine ⟨none, noMention told, nofun, fun _ => ?_⟩
      rw [column, ignored]
      rfl
    | false =>
      rw [ignored, if_neg Bool.false_ne_true] at told
      refine ⟨(Spot.section? ⟨context, last :: before, ofWritten bare name, after⟩).map (name, ·),
        ?_, ?_, fun clause => ?_⟩
      · have mentions := @Names.single ⟨{}, []⟩ _ _ _ _ (declares_of_fresh fresh) (fun _ => fresh.noClosing) _ told
        have same : (Column.Mention.ofName [] name) = fun sec => mentionOf (name, sec) :=
          funext fun sec => ofName_bare name sec
        rw [same] at mentions
        cases place : Spot.section? ⟨context, last :: before, ofWritten bare name, after⟩ <;>
          rw [place] at mentions <;> exact mentions
      · intro use member
        obtain ⟨sec, -, rfl⟩ := Option.map_eq_some_iff.mp member
        exact ⟨rfl, by rw [column, ignored]; rfl⟩
      · have here : Spot.clause ⟨context, last :: before, ofWritten bare name, after⟩ =
            ClauseForm.select.keyword.normalized := by
          rw [Spot.clause, clause]
          decide
        have place := section?_of_clause (openedBy .select) here
        rw [place, column, ignored]
        rfl

/-- The names of a list, each after the lexeme in front of it. -/
theorem names_list (between : last ∈ betweenNames) (halts : Halts after) (opened : context.opened = []) :
    ∃ uses : List (String × Section), Names ⟨{}, []⟩ context (last :: before)
        (ofNames bare first more) after (uses.map mentionOf) [] ∧
      (∀ use ∈ uses, use.1 ∈ first :: more ∧ (ofWritten bare use.1).isColumn = true) ∧
      (context.clause = some "SELECT" → (∀ name ∈ first :: more, (ofWritten bare name).isName = true) →
        uses = ((first :: more).filter fun name => (ofWritten bare name).isColumn).map (·, .select)) := by
  induction more generalizing context before last first with
  | nil =>
    obtain ⟨use?, names, uses, listed⟩ := @names_written bare first last context before after between halts opened
    refine ⟨use?.toList, names, fun use member => ?_, fun clause _ => ?_⟩
    · obtain ⟨same, column⟩ := uses use (Option.mem_toList.mp member)
      rw [same]
      exact ⟨List.mem_cons_self, column⟩
    · rw [listed clause]
      cases column : (ofWritten bare first).isColumn <;> simp [column]
  | cons next more ih =>
    obtain ⟨use?, names, uses, listed⟩ :=
      @names_written bare first last context before (comma :: ofNames bare next more ++ after)
      between ⟨rfl, rfl⟩ opened
    have flat : (ofWritten bare first).side? = none ∧ comma.side? = none := ⟨(word_facts bare first).2, rfl⟩
    have opened' : ((context.step (ofWritten bare first)).step comma).opened = [] := by
      rw [opened_step flat.2, opened_step flat.1, opened]
    obtain ⟨uses', names', within, listed'⟩ := @ih next comma ((context.step (ofWritten bare first)).step comma)
      (ofWritten bare first :: last :: before) (by decide) opened'
    refine ⟨use?.toList ++ uses', ?_, fun use member => ?_, fun clause words => ?_⟩
    · rw [List.map_append]
      exact names.append (.skip ⟨rfl, rfl⟩ names')
    · rcases List.mem_append.mp member with here | later
      · obtain ⟨same, column⟩ := uses use (Option.mem_toList.mp here)
        rw [same]
        exact ⟨List.mem_cons_self, column⟩
      · exact ⟨List.mem_cons_of_mem _ (within use later).1, (within use later).2⟩
    · obtain ⟨isName, others⟩ := List.forall_mem_cons.mp words
      have resumes : context.Resumes ((context.step (ofWritten bare first)).step comma) :=
        (resumes_step (staying_of_wordless ⟨flat.1, unkeyed_of_name isName⟩)).trans
          (resumes_step (staying_of_wordless ⟨flat.2, rfl⟩))
      rw [listed clause, listed' (resumes.clause.trans clause) others]
      cases column : (ofWritten bare first).isColumn <;> simp [column]

theorem names_select (bare : Bool) (first : String) (more : List String) : ∃ uses : List (String × Section),
    Names ⟨{}, []⟩ (Context.start (ofSelect bare first more)) [] (ofSelect bare first more) [] (uses.map mentionOf) [] ∧
      (∀ use ∈ uses, use.1 ∈ first :: more ∧ (ofWritten bare use.1).isColumn = true) ∧
      ((∀ name ∈ first :: more, (ofWritten bare name).isName = true) →
        uses = ((first :: more).filter fun name => (ofWritten bare name).isColumn).map (·, .select)) := by
  let context := (Context.start (ofSelect bare first more)).step (ofKeyword "SELECT" true)
  have clause : context.clause = some "SELECT" := by
    have significant :=
      (step_significant (Context.start (ofSelect bare first more)) (ofKeyword "SELECT" true) rfl (by decide)).1
    rwa [show (ofKeyword "SELECT" true).normalized = "SELECT" from normalForm_select] at significant
  have opened : context.opened = [] := opened_step rfl
  obtain ⟨uses, names, within, listed⟩ := @names_list bare first more (ofKeyword "SELECT" true) context []
    [ofKeyword "FROM" true, ofWritten bare "t"] (by decide) ⟨rfl, rfl⟩ opened
  have table :
      Names ⟨{}, []⟩
        (context.after (ofNames bare first more)) ((ofNames bare first more).reverse ++ [ofKeyword "SELECT" true])
      [ofKeyword "FROM" true, ofWritten bare "t"] [] [] [] :=
    names_from (isName_of_harmless fun _ => harmless_t) ((opened_after flat_names).trans opened)
  have whole := names.append table
  rw [List.append_nil, List.append_nil] at whole
  exact ⟨uses, .skip ⟨rfl, rfl⟩ whole, within, listed clause⟩

/-- Where all names are names, the table is found, and no alias. -/
theorem finds_select (words : ∀ name ∈ first :: more, (ofWritten bare name).isName = true) :
    Finds ["t"] (Context.start (ofSelect bare first more)) [] (ofSelect bare first more) [] ["t"] [] := by
  let context := (Context.start (ofSelect bare first more)).step (ofKeyword "SELECT" true)
  have avoids : context.Avoids Keyword.precedesTables := by
    obtain ⟨clause, -, opened⟩ :=
      step_significant (Context.start (ofSelect bare first more)) (ofKeyword "SELECT" true) rfl (by decide)
    refine ⟨?_, ?_⟩
    · rw [clause]
      decide
    · rw [opened]
      exact List.forall_mem_nil _
  have none : ∀ lexeme ∈ ofNames bare first more, lexeme.Avoids Keyword.precedesTables := by
    have name (name : String) (member : name ∈ first :: more) : (ofWritten bare name).Avoids Keyword.precedesTables :=
      avoids_unkeyed (unkeyed_of_name (words name member))
    intro lexeme member
    simp only [ofNames, List.mem_cons, List.mem_flatMap, List.not_mem_nil, or_false] at member
    rcases member with rfl | ⟨other, inside, rfl | rfl⟩
    · exact name first List.mem_cons_self
    · exact avoids_unkeyed rfl
    · exact name other (List.mem_cons_of_mem _ inside)
  have undotted :
      ∀ last ∈ ((ofNames bare first more).reverse ++ [ofKeyword "SELECT" true]).head?, last.isDot = false := by
    intro last found
    have member : last ∈ ofSelect bare first more := by
      rcases List.mem_append.mp (List.mem_of_mem_head? found) with inside | select
      · exact List.mem_cons_of_mem _ (List.mem_append_left _ (List.mem_reverse.mp inside))
      · exact List.mem_singleton.mp select ▸ List.mem_cons_self
    exact beq_eq_false_iff_ne.mpr (plain_ofSelect member).1
  have names :
      Finds ["t"] context [ofKeyword "SELECT" true] (ofNames bare first more)
          ([ofKeyword "FROM" true, ofWritten bare "t"] ++ []) [] [] :=
    .avoiding avoids none
  have table :
      Finds ["t"]
        (context.after (ofNames bare first more)) ((ofNames bare first more).reverse ++ [ofKeyword "SELECT" true])
      [ofKeyword "FROM" true, ofWritten bare "t"] [] [(ofWritten bare "t").value] [] :=
    finds_from (isName_of_harmless fun _ => harmless_t) undotted (by decide) rfl
  have whole := names.append table
  rw [value_ofWritten] at whole
  exact .skip (silent_of_other rfl) whole

end Passes

section Facts

variable {bare : Bool} {first : String} {more : List String} {limits : Limits} {text : String}
    {sequence : TokenSequence}

theorem length_ofSelect : (ofSelect bare first more).length = 2 * more.length + 4 := by
  simp [ofSelect, ofNames, Nat.mul_comm]

section Text

variable (quotable : ∀ name ∈ first :: more, IsQuotable name)
    (normal : normalize text.toList = selectText (writeName bare) first more)
include quotable normal

theorem reads_select (few : 2 * more.length + 4 ≤ limits.maxTokens) :
    ∃ sequence, Reading limits text (ofSelect bare first more) sequence := by
  obtain ⟨sequence, annotated⟩ :=
    Selections.annotate_of_shallow (Selections.shallow_level flat_select 0) (Nat.zero_le _)
  refine ⟨sequence, ?_, annotated⟩
  rw [queryTokens, normal]
  exact tokenize_ok_iff.mpr ⟨_, ofText_select quotable, length_ofSelect.trans_le few, annotated⟩

theorem refuses_select (many : limits.maxTokens < 2 * more.length + 4) :
    (Query.ofText text limits).facts = .error (.tooManyTokens (2 * more.length + 4) limits.maxTokens) := by
  have refused : queryTokens limits text = .error (.tooManyTokens (2 * more.length + 4) limits.maxTokens) := by
    rw [queryTokens, normal, tokenize, ofText_select quotable]
    simp only [length_ofSelect]
    exact if_pos many
  obtain ⟨analyze, within⟩ := exists_analyze limits text
  change factsAt limits 0 text = _
  rw [within, statementFacts, refused]
  rfl

end Text

section Statement

variable (reading : Reading limits text (ofSelect bare first more) sequence)
include reading

theorem kind_select : StatementKind.ofTokens sequence = .ok .select := by
  refine reading.kind rfl (show "SELECT" ≠ "(" by decide) ?_
  rw [show (ofKeyword "SELECT" true).normalized = "SELECT" from normalForm_select]
  rfl

/-- WITH declares nothing where it stands. -/
theorem clauseless_select : WithClause.ofTokens sequence = .ok {} := by
  have annotated := reading.annotated
  have empty : sequence.cursors.filter WithClause.isHeader = [] := by
    refine List.filter_eq_nil_iff.mpr fun cursor member => ?_
    obtain ⟨index, inside, rfl⟩ := Cursor.mem_cursors member
    obtain ⟨⟨context, before, here, after⟩, within, rfl⟩ := exists_spot annotated inside
    have whole := within.whole
    -- A clause begins with the statement or with a parenthesis, and the one begins with SELECT and has no other.
    cases before with
    | nil =>
      have other : (sequence.cursor 0).isWord "WITH" = false := by
        refine ((shows_here annotated whole).isWord "WITH").trans ?_
        rw [← (List.cons.inj whole).1]
        decide
      simp [WithClause.isHeader, other]
    | cons last before =>
      obtain ⟨previous, earlier⟩ := previous_of_split annotated whole
      have some : (sequence.cursor before.length).isEmpty = false := by
        rw [Cursor.cursor_of_lt (inside_of_split annotated earlier)]
        rfl
      have member : last ∈ ofSelect bare first more := by
        rw [earlier]
        simp
      have noParen : (sequence.cursor before.length).isLeftParen = false := by
        rw [(shows_here annotated earlier).isLeftParen]
        exact (plain_ofSelect member).2.2 "(" (by decide)
      simp only [WithClause.isHeader, previous, some, noParen, Bool.or_self, Bool.and_false,
        Bool.false_eq_true, not_false_eq_true]
  rw [WithClause.ofTokens, empty]
  rfl

theorem bodiless_select : Subquery.bodies sequence = {} := by
  refine bodies_unnamed reading fun spot within closing => ?_
  have member : spot.here ∈ ofSelect bare first more := by
    rw [within.whole]
    simp
  rw [(plain_ofSelect member).2.2 ")" (by decide)] at closing
  cases closing

end Statement

/-- The facts of a selection of these columns from the table. -/
def selectionOf (columns : List String) : Facts :=
  Facts.completed ((((columns.map (·, Section.select)).map mentionOf).map Column.Mention.bare).foldl Facts.addReference
    { tables := ["t"] })

/-- Each column is a name as it is written, and where all names are names these are the facts of the selection. -/
theorem facts_select (quotable : ∀ name ∈ first :: more, IsQuotable name)
    (normal : normalize text.toList = selectText (writeName bare) first more)
    (few : 2 * more.length + 4 ≤ limits.maxTokens) :
    ∃ facts, (Query.ofText text limits).facts = .ok facts ∧
      (∀ name ∈ facts.columns, name ∈ first :: more ∧ (ofWritten bare name).isColumn = true) ∧
      ((∀ name ∈ first :: more, (ofWritten bare name).isName = true) →
        facts = selectionOf ((first :: more).filter fun name => (ofWritten bare name).isColumn) ∧
          facts.Selects ((first :: more).filter fun name => (ofWritten bare name).isColumn)) := by
  obtain ⟨sequence, reading⟩ := reads_select quotable normal few
  have annotated := reading.annotated
  obtain ⟨uses, names, within, listed⟩ := names_select bare first more
  have bodiless := bodiless_select reading
  have undeclared : Facts.declarations sequence {} = [] := List.map_eq_nil_iff.mp (labels_eq annotated bodiless names)
  have mentioned := MentionSpots.mentions_eq annotated bodiless names
  rw [undeclared] at mentioned
  -- Keywords among the names may rename the table, but no column is looked up through it without a dot.
  have undotted (use : String × Section) (used : use ∈ uses) : '.' ∉ use.1.toList := fun dotted =>
    (quotable _ (within use used).1 '.' dotted).2.2.2 rfl
  have found :=
    facts_undeclared reading (kind_select reading) (by decide) (clauseless_select reading) bodiless undeclared
    (fun use used => MeantColumns.meaning_bare (undotted use used)) mentioned
  have lists := lists_undeclared undeclared uses
  refine ⟨_, found, fun name member => ?_, fun words => ?_⟩
  · rw [lists.columns, mem_distinct] at member
    obtain ⟨use, used, rfl⟩ := List.mem_map.mp member
    exact within use used
  · have finds := finds_select words
    have tables : Table.names sequence [] = ["t"] := by
      rw [names_eq annotated, finds.names]
      rfl
    have unaliased : Table.aliases sequence (Table.names sequence []) = {} := by
      rw [tables, aliases_eq annotated, finds.aliases]
      rfl
    have start : Facts.unread sequence {} {} = { tables := ["t"] } := by
      have clause : WithClause.names {} = [] := rfl
      rw [Facts.unread, clause, unaliased, tables, Facts.declaredNames_eq_nil undeclared, bodiless]
    refine ⟨?_, lists.tables.trans tables, ?_,
      (MeantColumns.keeps_completed sequence {} {} _).tableAliases.trans unaliased, lists.aliasNames, lists.aliases⟩
    · rw [Facts.read, undeclared, start, listed words]
      rfl
    · rw [lists.columns, listed words, List.map_map]
      exact congrArg distinct (List.map_id _)

end Facts

/-- Double-quoted names are selected as names in backticks are, unless the statement is too long or a name is a
keyword or a function without its quotes: such a name is lost. In any text a double-quoted identifier is written
where it stood, and is one name exactly where it stands alone. -/
theorem doubleQuoted_names {first : String} {more : List String}
    (quotable : ∀ name ∈ first :: more, IsQuotable name) (limits : Limits)
    {text inner : List Char} {front back : List Segment}
    (parts : Segment.ofText text = front ++ ⟨.doubleQuoted, enclose doubleQuote inner⟩ :: back) :
    (let doubled := (Query.ofText (quotedSelect doubleQuote first more) limits).facts
      let ticked := (Query.ofText (quotedSelect backtick first more) limits).facts
      if limits.maxTokens < 2 * more.length + 4 then
        doubled = .error (.tooManyTokens (2 * more.length + 4) limits.maxTokens) ∧ ticked = doubled
      else ∃ facts others, ticked = .ok facts ∧ facts.Selects ((first :: more).filter (!Keyword.isIgnoredFunction ·)) ∧
        doubled = .ok others ∧ ((∀ name ∈ first :: more, IsHarmless name) → others = facts) ∧
        ∀ name ∈ first :: more, ¬ IsHarmless name → name ∈ facts.columns ∧ name ∉ others.columns) ∧
    let after := back.flatMap Segment.normalize
    normalize text = front.flatMap Segment.normalize ++ (writeIdentifier inner ++ after) ∧
      (IsReadAsName (normalize text) inner after ↔
        ∃ items others, Lexer.Arrives (normalize text) items (writeIdentifier inner ++ after) ∧
        Lexer.items after = .ok others ∧ StandsAlone items others inner after) := by
  refine ⟨?_, WrittenIdentifier.normalize_parts parts, WrittenIdentifier.isReadAsName_iff⟩
  obtain ⟨double, tick⟩ := normalize_quotedSelect quotable
  split
  next many =>
    rw [refuses_select quotable double many, refuses_select quotable tick many]
    exact ⟨rfl, rfl⟩
  next fits =>
    have few := Nat.le_of_not_lt fits
    obtain ⟨others, doubled, within, same⟩ := facts_select quotable double few
    obtain ⟨facts, ticked, -, exact'⟩ := facts_select quotable tick few
    obtain ⟨selection, selects⟩ := exact' fun name _ => isName_of_harmless nofun
    refine ⟨facts, others, ticked, selects, doubled, fun harmless => ?_, fun name member harmful => ?_⟩
    · have columns : ((first :: more).filter fun name => (ofWritten true name).isColumn) =
          (first :: more).filter fun name => (ofWritten false name).isColumn :=
        List.filter_congr fun name member => isHarmless_iff.mp (harmless name member)
      rw [(same fun name member => isName_of_harmless fun _ => harmless name member).1, selection, columns]
    · obtain ⟨column, lost⟩ := columns_of_harmful harmful
      rw [selects.columns, mem_distinct, List.mem_filter]
      exact ⟨⟨member, column⟩, fun inside => absurd (lost.symm.trans (within name inside).2) Bool.false_ne_true⟩

/-- `order` is lost without its quotes, `a` and `two words` are not, and `a` is no name of its own in front of a
digit. -/
theorem doubleQuoted_names_order :
    (∃ facts others, (Query.ofText "SELECT `order`, `two words` FROM `t`" {}).facts = .ok facts ∧
      facts.columns = ["order", "two words"] ∧
      (Query.ofText "SELECT \"order\", \"two words\" FROM \"t\"" {}).facts = .ok others ∧ "order" ∉ others.columns) ∧
    (Query.ofText "SELECT \"a\", \"two words\" FROM \"t\"" {}).facts =
      (Query.ofText "SELECT `a`, `two words` FROM `t`" {}).facts ∧
    IsReadAsName (normalize "SELECT \"two words\", 1".toList) "two words".toList ", 1".toList ∧
    ¬ IsReadAsName (normalize "SELECT \"a\"1".toList) "a".toList "1".toList := by
  have alone : Segment.ofText "SELECT \"two words\", 1".toList =
      [⟨.code, "SELECT ".toList⟩] ++ ⟨.doubleQuoted, enclose doubleQuote "two words".toList⟩ ::
        [⟨.code, ", 1".toList⟩] := by decide +kernel
  have beside : Segment.ofText "SELECT \"a\"1".toList =
      [⟨.code, "SELECT ".toList⟩] ++ ⟨.doubleQuoted, enclose doubleQuote "a".toList⟩ ::
        [⟨.code, "1".toList⟩] := by decide +kernel
  have first : ∀ name ∈ ["order", "two words"], IsQuotable name := by decide
  have second : ∀ name ∈ ["a", "two words"], IsQuotable name := by decide
  obtain ⟨⟨facts, others, ticked, selects, doubled, -, lost⟩, written, stands⟩ := doubleQuoted_names first {} alone
  obtain ⟨⟨facts', others', ticked', -, doubled', same, -⟩, -, joins⟩ := doubleQuoted_names second {} beside
  have harmful : ¬ IsHarmless "order" := by decide
  have harmless : ∀ name ∈ ["a", "two words"], IsHarmless name := by decide
  refine ⟨⟨facts, others, ticked, selects.columns.trans (by decide), doubled, (lost "order" (by decide) harmful).2⟩,
    ?_, ?_, fun named => ?_⟩
  · exact doubled'.trans ((congrArg Except.ok (same harmless)).trans ticked'.symm)
  · have arrives :
        Lexer.Arrives (normalize "SELECT \"two words\", 1".toList) [.lexical .keyword "SELECT".toList none, .gap]
        (writeIdentifier "two words".toList ++ ", 1".toList) := by
      rw [written]
      exact WrittenIdentifier.arrives_append (@arrives_keyword "SELECT" (by decide) (by decide) _) (.next rfl .here)
    refine stands.mpr ⟨_, [.lexical .punctuation [','] none, .gap, .lexical .integer ['1'] none],
      arrives, by decide +kernel, ?_⟩
    unfold StandsAlone
    decide
  · obtain ⟨items, others, -, -, stands⟩ := joins.mp named
    unfold StandsAlone at stands
    exact absurd stands.1 (by decide)

end Proofs.QuotedColumns

end QueryFacts

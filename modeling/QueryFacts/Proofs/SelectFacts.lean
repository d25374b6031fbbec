import QueryFacts.Proofs.CoherentFacts
import QueryFacts.Proofs.SelectList

/-! The facts of a statement that selects columns from one table: its columns are those of
the select list, in order of first appearance, and nothing in it is an alias. -/

namespace QueryFacts.Proofs.SelectFacts
open Text Lexeme PlainText Nesting StatementRun SelectList

/-- Not both are names. -/
def NamesApart (first next : TokenKind) : Prop := first = .name → next ≠ .name

/-- The tokens of such a statement: no parenthesis, no alias, and names for columns and one table. -/
structure IsSelect (sequence : TokenSequence) : Prop where
  token : ∀ token ∈ sequence.tokens, IsSelectToken token
  apart : (sequence.tokens.toList.map (·.kind)).IsChain NamesApart
  starts : ∃ token rest, sequence.tokens.toList = token :: rest ∧ token.value = "SELECT" ∧ token.normalized = "SELECT"

/-- The column that a token of the select list mentions. -/
def mentionOf (token : Token) : Option Column.Mention :=
  if token.kind = .name ∧ token.lastKeyword.map (·.word) = some "SELECT" then
    some (.column token.value .select) else none

namespace IsSelect

variable {sequence : TokenSequence} (select : IsSelect sequence)
include select

section Cursor

variable (cursor : Cursor) (on : cursor.sequence = sequence)
include on

theorem token? {token : Token} (found : cursor.token? = some token) : IsSelectToken token :=
  select.token token (on ▸ Cursor.mem_of_token? found)

theorem paren? : cursor.paren? = none := by
  unfold Cursor.paren?
  cases found : cursor.token? with
  | none => rfl
  | some token => exact (select.token? cursor on found).paren

theorem isLeftParen : cursor.isLeftParen = false := by rw [Cursor.isLeftParen, select.paren? cursor on]; rfl

theorem isRightParen : cursor.isRightParen = false := by rw [Cursor.isRightParen, select.paren? cursor on]; rfl

theorem opens (kind : ParenKind) : cursor.opens kind = false := by rw [Cursor.opens, select.paren? cursor on]; rfl

theorem closes (kind : ParenKind) : cursor.closes kind = false := by rw [Cursor.closes, select.paren? cursor on]; rfl

theorem isWord (word : String) (noSelect : word ≠ "SELECT") (noFrom : word ≠ "FROM") : cursor.isWord word = false := by
  unfold Cursor.isWord Cursor.isKeyword Cursor.kind? Cursor.normalized
  cases found : cursor.token? with
  | none => rfl
  | some token =>
    have known := (select.token? cursor on found).keyword
    simp only [Option.map_some, Option.getD_some, Bool.and_eq_false_iff, beq_eq_false_iff_ne, Option.some.injEq, ne_eq]
    refine or_iff_not_imp_left.mpr fun keyword same => ?_
    rcases known (not_not.mp keyword) with select | from'
    · exact noSelect (same.symm.trans select)
    · exact noFrom (same.symm.trans from')

theorem kind? {kind : TokenKind} (other : kind ≠ .keyword ∧ kind ≠ .name ∧ kind ≠ .punctuation ∧ kind ≠ .operator) :
    cursor.kind? ≠ some kind := by
  unfold Cursor.kind?
  intro same
  obtain ⟨token, found, rfl⟩ := Option.map_eq_some_iff.mp same
  obtain ⟨noKeyword, noName, noMark, noOperator⟩ := other
  rcases (select.token? cursor on found).kind with kind | kind | kind | kind
  · exact noKeyword kind
  · exact noName kind
  · exact noMark kind
  · exact noOperator kind

theorem isDot : cursor.isDot = false := beq_eq_false_iff_ne.mpr (select.kind? cursor on (by decide))

theorem isWildcard : cursor.isWildcard = false := beq_eq_false_iff_ne.mpr (select.kind? cursor on (by decide))

theorem isInteger : cursor.isInteger = false := beq_eq_false_iff_ne.mpr (select.kind? cursor on (by decide))

theorem isLiteral : cursor.isLiteral = false := beq_eq_false_iff_ne.mpr (select.kind? cursor on (by decide))

theorem value_ne : cursor.value ≠ "::" := by
  unfold Cursor.value
  cases found : cursor.token? with
  | none => decide
  | some token => exact (select.token? cursor on found).value

theorem isExcluded (name : cursor.isName = true) : Column.isExcluded cursor [] = false := by
  have free : Keyword.isIgnoredFunction cursor.normalized = false := by
    unfold Cursor.isName Cursor.kind? at name
    unfold Cursor.normalized
    cases found : cursor.token? with
    | none => rw [found] at name; exact absurd name (by decide)
    | some token =>
      rw [found] at name
      exact (select.token? cursor on found).name (by simpa using name)
  have unit : Column.isIntervalUnit cursor = false := by
    simp only [Column.isIntervalUnit, select.isInteger cursor.previous on, select.isLiteral cursor.previous on,
      Bool.or_self, Bool.false_and]
  have noCast : (cursor.previous.value == "::") = false := beq_eq_false_iff_ne.mpr (select.value_ne cursor.previous on)
  have undeclared : cursor.index.any ([] : List Nat).contains = false := by cases cursor.index <;> rfl
  simp only [Column.isExcluded, select.isDot cursor.next on, select.isLeftParen cursor.next on,
    select.isWord cursor.previous on "AS" (by decide) (by decide),
    select.isRightParen cursor.previous on, select.opens cursor.enclosing on, free, unit, noCast, undeclared,
    Bool.or_self]

theorem section? (name : cursor.isName = true) :
    Column.section? cursor = if cursor.lastKeyword = "SELECT" then some .select else none := by
  have known : cursor.lastKeyword = "SELECT" ∨ cursor.lastKeyword = "FROM" := by
    unfold Cursor.isName Cursor.kind? at name
    unfold Cursor.lastKeyword Cursor.lastKeyword?
    cases found : cursor.token? with
    | none => rw [found] at name; exact absurd name (by decide)
    | some token =>
      rw [found] at name
      rw [Option.bind_some]
      rcases (select.token? cursor on found).clause (by simpa using name) with same | same
      · exact .inl (by rw [same]; rfl)
      · exact .inr (by rw [same]; rfl)
  unfold Column.section?
  rcases known with same | same
  · rw [same]
    rfl
  · rw [same]
    rfl

theorem isExpressionAlias (apart : cursor.isName = true → cursor.previous.isName = false) :
    AliasDeclaration.isExpressionAlias cursor = false := by
  cases name : cursor.isName with
  | false => simp only [AliasDeclaration.isExpressionAlias, name, Bool.false_and]
  | true =>
    have noAs : cursor.previous.isWord "AS" = false := select.isWord cursor.previous on "AS" (by decide) (by decide)
    have noEnd : cursor.previous.isWord "END" = false := select.isWord cursor.previous on "END" (by decide) (by decide)
    have noParen (kind : ParenKind) : cursor.previous.closes kind = false := select.closes cursor.previous on kind
    have bare : AliasDeclaration.isAliasWithoutAs cursor = false := by
      simp only [AliasDeclaration.isAliasWithoutAs, apart name, select.isLiteral cursor.previous on, noParen, noEnd,
        Bool.or_self, Bool.and_false]
    simp only [AliasDeclaration.isExpressionAlias, noAs, noParen, bare, Bool.false_and, Bool.or_self, Bool.and_false]

end Cursor

theorem dottedName {index : Nat} (inside : index < sequence.size) :
    (sequence.cursor index).dottedName = (sequence.cursor index).value := by
  have alone : Cursor.nameParts sequence index = [(sequence.cursor index).value] := by
    rcases index with _ | _ | index
    · rfl
    · rfl
    · rw [Cursor.nameParts, select.isDot (sequence.cursor (index + 1)) rfl, Bool.false_and]
      rfl
  rw [Cursor.dottedName, Cursor.cursor_of_lt inside]
  simp only [alone, Cursor.cursor_of_lt inside]
  rfl

theorem previous_isName {index : Nat} (inside : index < sequence.size) (name : (sequence.cursor index).isName = true) :
    (sequence.cursor index).previous.isName = false := by
  cases index with
  | zero =>
    rw [Cursor.cursor_of_lt inside]
    rfl
  | succ index =>
    have chain := List.isChain_iff_getElem.mp select.apart index (by rwa [List.length_map, Array.length_toList])
    rw [Cursor.previous_cursor inside]
    unfold Cursor.isName Cursor.kind? at name ⊢
    rw [Cursor.token?_cursor, Array.getElem?_eq_getElem inside] at name
    rw [Cursor.token?_cursor, Array.getElem?_eq_getElem (Nat.lt_of_succ_lt inside)]
    simp only [List.getElem_map, Array.getElem_toList, NamesApart] at chain
    simp only [Option.map_some, beq_iff_eq, Option.some.injEq, beq_eq_false_iff_ne, ne_eq] at name ⊢
    exact fun before => chain before name

theorem withClause : WithClause.ofTokens sequence = .ok {} := by
  have none : sequence.cursors.filter WithClause.isHeader = [] := by
    refine List.filter_eq_nil_iff.mpr fun cursor member => ?_
    obtain ⟨index, -, rfl⟩ := Cursor.mem_cursors member
    simp [WithClause.isHeader, select.isWord (sequence.cursor index) rfl "WITH" (by decide) (by decide)]
  rw [WithClause.ofTokens, none]
  rfl

theorem declarations : Facts.declarations sequence {} = [] := by
  have none (reserved : List String) : AliasDeclaration.ofExpressions sequence reserved = [] := by
    refine List.filterMap_eq_nil_iff.mpr fun cursor member => ?_
    obtain ⟨here, declares⟩ := List.mem_filter.mp member
    obtain ⟨index, inside, rfl⟩ := Cursor.mem_cursors here
    rw [select.isExpressionAlias (sequence.cursor index) rfl (select.previous_isName inside)] at declares
    exact absurd declares (by simp)
  rw [Facts.declarations, AliasDeclaration.ofTokens, none, List.flatMap_nil, List.append_nil, List.mergeSort_nil]

theorem kind : StatementKind.ofTokens sequence = .ok .select := by
  obtain ⟨token, rest, same, value, word⟩ := select.starts
  have unparenthesized : (token :: rest).dropWhile (·.value == "(") = token :: rest :=
    List.dropWhile_cons_of_neg (by rw [value]; decide)
  rw [StatementKind.ofTokens, same, unparenthesized, List.map_cons, word]
  rfl

theorem mentions : Column.mentions sequence [] [] = sequence.tokens.toList.filterMap mentionOf := by
  refine Cursor.filterMap_cursors fun index token found => ?_
  have inside : index < sequence.size := (Array.getElem?_eq_some_iff.mp found).1
  have here : (sequence.cursor index).token? = some token := Cursor.token?_cursor.trans found
  have kind : (sequence.cursor index).kind? = some token.kind := by rw [Cursor.kind?, here]; rfl
  simp only [Column.mention?, select.isWildcard (sequence.cursor index) rfl, Bool.false_eq_true, if_false, mentionOf]
  by_cases name : token.kind = .name
  · have isName : (sequence.cursor index).isName = true := by rw [Cursor.isName, kind, name]; rfl
    have value : (sequence.cursor index).value = token.value := by rw [Cursor.value, here]; rfl
    have keyword : (sequence.cursor index).lastKeyword = (token.lastKeyword.map (·.word)).getD "" := by
      rw [Cursor.lastKeyword, Cursor.lastKeyword?, here]
      rfl
    have selects : (token.lastKeyword.map (·.word)).getD "" = "SELECT" ↔
        token.lastKeyword.map (·.word) = some "SELECT" := by
      cases token.lastKeyword <;> simp
    rw [select.isExcluded _ rfl isName, select.section? _ rfl isName, select.dottedName inside, keyword, isName, value]
    simp only [selects, name, true_and, List.contains_nil, Bool.and_false, Bool.not_true, Bool.or_self,
      Bool.false_eq_true, if_false]
    split <;> simp
  · have noName : (sequence.cursor index).isName = false := by
      rw [Cursor.isName, kind]
      simpa using name
    simp [noName, name]

end IsSelect

section Columns

theorem scan_bare (tableAliases : NameMap String) (bodies : Bodies) {names : List String}
    (bare : ∀ name ∈ names, '.' ∉ name.toList) (scan : Column.Scan) :
    ∃ known, (names.map (Column.Mention.column · .select)).foldlM (Column.Scan.add tableAliases bodies) scan =
      .ok ⟨scan.references ++ names.map fun name => .column [name] name (some .select), known⟩ := by
  induction names generalizing scan with
  | nil => exact ⟨scan.known, by simp [pure, Except.pure]⟩
  | cons name rest ih =>
    have unqualified : splitQualified? name = none := by
      simp [splitQualified?, splitAtLastDot_eq_none (bare name List.mem_cons_self)]
    let next : Column.Scan :=
      ⟨scan.references ++ [.column [name] name (some .select)], scan.known.insertNew name [name]⟩
    have step : Column.Scan.add tableAliases bodies scan (.column name .select) = .ok next := by
      simp only [Column.Scan.add, Column.meaning, unqualified]
      rfl
    obtain ⟨known, ends⟩ := ih (fun other member => bare other (List.mem_cons_of_mem _ member)) next
    refine ⟨known, ?_⟩
    simp only [next, List.append_assoc, List.singleton_append] at ends
    rw [List.map_cons, List.map_cons, List.foldlM_cons, step]
    exact ends

/-- Noting columns of the select list adds those that are new. -/
theorem addReferences_select (names known : List String) (facts : Facts)
    (listed : facts.columnsBySection = [(.select, known)]) :
    let after :=
      (names.map fun name => Column.Reference.column [name] name (some .select)).foldl Facts.addReference facts
    after.columns = addAllNew facts.columns names ∧ after.columnsBySection = [(.select, addAllNew known names)] ∧
      after.aliases = facts.aliases ∧ after.aliasesBySection = facts.aliasesBySection := by
  induction names generalizing known facts with
  | nil => exact ⟨rfl, listed, rfl, rfl⟩
  | cons name rest ih =>
    let next := facts.addReference (.column [name] name (some .select))
    have section' : next.columnsBySection = [(.select, addNew known name)] := by
      simp [next, Facts.addReference, listed, SectionMap.add, addAllNew]
    exact ih (addNew known name) next section'

/-- What a statement that selects these columns is found to select. -/
structure Selects (facts : Facts) (names : List String) : Prop where
  columns : facts.columns = distinct names
  selected : facts.selected = distinct names
  aliases : facts.aliases = {}

theorem selects_ofTokens {sequence : TokenSequence} (select : IsSelect sequence) {first : String} {rest : List String}
    (mentioned : sequence.tokens.toList.filterMap mentionOf = (first :: rest).map (Column.Mention.column · .select))
    (bare : ∀ name ∈ first :: rest, '.' ∉ name.toList) (analyze : String → Except Error Facts) :
    ∃ facts, Facts.ofTokens sequence .select analyze = .ok facts ∧ Selects facts (first :: rest) := by
  let tables := Table.aliases sequence (Table.names sequence (WithClause.names {}))
  let bodies := Bodies.ofStatement sequence {} (Subquery.bodies sequence) analyze
  obtain ⟨known, noted⟩ := scan_bare tables bodies bare {}
  let scan : Column.Scan := ⟨(first :: rest).map fun name => .column [name] name (some .select), known⟩
  have scanned : Column.scan sequence .select tables (Facts.declaredNames sequence {})
      ((Facts.declarations sequence {}).map (·.position)) bodies = .ok scan := by
    rw [Facts.declaredNames_eq_nil select.declarations, select.declarations, Column.scan, List.map_nil,
      select.mentions, mentioned]
    exact noted
  let start := Facts.unread sequence {} {}
  let opened := start.addReference (.column [first] first (some .select))
  have listed : opened.columnsBySection = [(.select, distinct [first])] := rfl
  obtain ⟨columns, clauses, aliases, used⟩ := addReferences_select rest (distinct [first]) opened listed
  let read := (rest.map fun name => Column.Reference.column [name] name (some .select)).foldl Facts.addReference opened
  have unused : read.aliasesBySection = [] := used
  have same : Facts.completed read = read.completeColumns := by
    rw [Facts.completed, unused, List.foldl_nil]
  have whole : addAllNew (distinct [first]) rest = distinct (first :: rest) := rfl
  have found : read.columns = distinct (first :: rest) := columns.trans whole
  have section' : read.columnsBySection = [(.select, distinct (first :: rest))] := clauses
  refine ⟨Facts.completed read, Facts.ofTokens_ok_iff.mpr ⟨rfl, {}, scan, {}, select.withClause, scanned, ?_, ?_⟩, ?_⟩
  · rw [select.declarations]
    rfl
  · rw [Facts.read, select.declarations]
    rfl
  · rw [same]
    have all : read.completeColumns.columns = addAllNew read.columns (read.columnsBySection.flatMap (·.2)) := rfl
    refine ⟨?_, ?_, aliases⟩
    · rw [all, section', found]
      exact addAllNew_of_subset fun _ member => by simpa using member
    · rw [Facts.selected, show read.completeColumns.columnsBySection = _ from section']
      rfl

end Columns

section Text

variable {spaceBefore : Bool} {first : String} {links : List (Lexeme × String)}

theorem apart_selectLexemes (marks : ∀ link ∈ links.map (·.1), IsLink link) :
    ((selectLexemes spaceBefore first links).map (·.kind)).IsChain NamesApart := by
  have link {lexeme : Lexeme} (known : IsLink lexeme) : lexeme.kind ≠ .name := by
    rcases known with rfl | ⟨operator, rfl⟩
    · exact of_decide_eq_true rfl
    · exact of_decide_eq_true rfl
  have keyword {next : TokenKind} : NamesApart .keyword next := fun name => absurd name (by decide)
  have listed : (linked first true links ++ [ofKeyword "FROM" true, ofName "t" true]).IsChain
      fun before after => NamesApart before.kind after.kind := by
    refine chain_linked marks (fun _ _ _ known _ => link known) (fun _ _ known name => absurd name (link known))
      fun _ _ => ?_
    have after (kind : TokenKind) : NamesApart kind .keyword := fun _ => by decide
    exact List.isChain_cons_cons.mpr ⟨after _, List.isChain_cons_cons.mpr ⟨keyword, List.isChain_singleton _⟩⟩
  rw [List.isChain_map, selectLexemes]
  exact List.isChain_cons_cons.mpr ⟨keyword, listed⟩

theorem isSelect (state : Nesting) (names : ∀ name ∈ first :: links.map (·.2), IsColumnName name)
    (marks : ∀ link ∈ links.map (·.1), IsLink link) :
    IsSelect ⟨(selectTokens state spaceBefore first links).toArray⟩ where
  token token member := isSelectToken names marks token (by simpa using member)
  apart := by
    rw [List.toList_toArray, map_selectTokens state fun _ _ _ => rfl]
    exact apart_selectLexemes marks
  starts := ⟨_, _, rfl, rfl, normalForm_select⟩

theorem mentions_selectTokens (state : Nesting) (marks : ∀ link ∈ links.map (·.1), IsLink link) :
    (selectTokens state spaceBefore first links).filterMap mentionOf =
      (first :: links.map (·.2)).map (Column.Mention.column · .select) := by
  have listed : ((afterKeyword state "SELECT" spaceBefore).flat (linked first true links)).filterMap mentionOf =
      (first :: links.map (·.2)).map (Column.Mention.column · .select) := by
    rw [← names_linked marks, List.map_filterMap]
    refine filterMap_flat fun lexeme position => ?_
    have selects := lastKeyword_select state spaceBefore
    by_cases name : lexeme.kind = .name <;> simp [mentionOf, name?, tokenOf, name, selects]
  have keyword (state : Nesting) (word : String) (apart : Bool) :
      mentionOf (state.tokenOf (ofKeyword word apart)) = none :=
    if_neg fun both => absurd both.1 (show TokenKind.keyword ≠ .name by decide)
  have table (state : Nesting) : mentionOf ((afterKeyword state "FROM" true).tokenOf (ofName "t" true)) = none :=
    if_neg fun both => absurd (both.2.symm.trans (lastKeyword_from state true)) (by decide)
  rw [selectTokens, List.filterMap_cons_none (keyword _ _ _), List.filterMap_append, listed,
    List.filterMap_cons_none (keyword _ _ _), List.filterMap_cons_none (table _), List.filterMap_nil, List.append_nil]

/-- The text of the statement. -/
def selectText (first : String) (links : List (Lexeme × String)) : String :=
  String.ofList (written (selectLexemes true first links))

theorem queryTokens_select {limits : Limits} (names : ∀ name ∈ first :: links.map (·.2), IsColumnName name)
    (marks : ∀ link ∈ links.map (·.1), IsLink link) (few : (selectLexemes true first links).length ≤ limits.maxTokens) :
    queryTokens limits (selectText first links) =
      .ok ⟨(selectTokens (Nesting.start (selectLexemes true first links)) true first links).toArray⟩ := by
  let start := Nesting.start (selectLexemes true first links)
  have unheaded : start.headers.head? ≠ some start.depth := nofun
  obtain ⟨after, run, tokens, closed, -⟩ := runs_select unheaded marks
  have read := ofText_written (legible_selectLexemes names marks)
  rw [queryTokens, selectText, String.toList_ofList]
  refine NestingRun.tokenize_ok_iff.mpr ⟨_, read, few, (annotate_of_runs run closed).trans ?_⟩
  rw [tokens]
  simp [start, Nesting.start]

/-- The facts of such a statement, at any depth. -/
theorem factsWithin_select {limits : Limits} (levels depth : Nat)
    (names : ∀ name ∈ first :: links.map (·.2), IsColumnName name) (marks : ∀ link ∈ links.map (·.1), IsLink link)
    (few : (selectLexemes true first links).length ≤ limits.maxTokens) :
    ∃ facts, factsWithin limits levels depth (selectText first links) = .ok facts ∧
      Selects facts (first :: links.map (·.2)) := by
  have analyzed (analyze : String → Except Error Facts) :
      ∃ facts, statementFacts limits (selectText first links) analyze = .ok facts ∧
        Selects facts (first :: links.map (·.2)) := by
    have bare : ∀ name ∈ first :: links.map (·.2), '.' ∉ name.toList :=
      fun name member => bare_of_column (names name member)
    have tokens := queryTokens_select names marks few
    generalize Nesting.start (selectLexemes true first links) = start at tokens
    have select : IsSelect ⟨(selectTokens start true first links).toArray⟩ := isSelect start names marks
    obtain ⟨facts, known, selects⟩ := selects_ofTokens select (mentions_selectTokens start marks) bare analyze
    refine ⟨facts, ?_, selects⟩
    simp only [statementFacts, bind, Except.bind, tokens, select.kind, known]
  cases levels with
  | zero => exact analyzed _
  | succ levels => exact analyzed _

end Text

end QueryFacts.Proofs.SelectFacts

import QueryFacts.Proofs.DeclaredColumns

/-! Statements that read one column of a common table expression with declared columns: their
text, and the tokens that they are annotated with. -/

namespace QueryFacts

/-- The text of a statement that reads one column of a common table expression with declared columns. -/
def columnListText (names : List String) (items : List SelectItem) (name : String) : String :=
  "WITH cte (" ++ String.intercalate ", " names ++ ") AS (SELECT " ++
    String.intercalate ", " (items.map SelectItem.text)
    ++ " FROM t) SELECT cte." ++ name ++ " FROM cte"

namespace Proofs.ColumnListStatement
open Text Lexeme PlainText Nesting StatementRun SelectList DeclaredQuery

section Text

variable {first name : String} {others : List String} {item : SelectItem} {items : List SelectItem}

def opening : Lexeme := ⟨.punctuation, "(", none, true⟩

def closing : Lexeme := ⟨.punctuation, ")", none, false⟩

def nameLinks (names : List String) : List (Lexeme × String) := names.map (comma, ·)

/-- `cte.name`. -/
def reference (name : String) : List Lexeme := [ofName "cte" true, ⟨.dot, ".", none, false⟩, ofName name false]

/-- The main statement, which reads the column `name`. -/
def mainLexemes (name : String) : List Lexeme :=
  ofKeyword "SELECT" true :: (reference name ++ [ofKeyword "FROM" true, ofName "cte" true])

def columnListLexemes (first : String) (others : List String) (item : SelectItem)
    (items : List SelectItem) (name : String) :
    List Lexeme :=
  ofKeyword "WITH" true :: ofName "cte" true :: opening :: (linked first false (nameLinks others) ++
    closing :: ofKeyword "AS" true :: opening :: (selectLexemes false item.first (item.linksBefore items) ++
      closing :: mainLexemes name))

theorem names_nameLinks (names : List String) : (nameLinks names).map (·.2) = names := by
  rw [nameLinks, List.map_map]
  exact List.map_id _

theorem isLink_nameLinks : ∀ link ∈ (nameLinks others).map (·.1), IsLink link := by
  intro link member
  simp only [nameLinks, List.map_map, List.mem_map] at member
  obtain ⟨name, -, rfl⟩ := member
  exact .inl rfl

theorem spell_nameList (apart : Bool) : spell (linked first apart (nameLinks others)) =
    (if apart then [' '] else []) ++ (String.intercalate ", " (first :: others)).toList := by
  let single (name : String) : SelectItem := ⟨name, []⟩
  have links : (single first).linksBefore (others.map single) = nameLinks others := by
    rw [SelectItem.linksBefore, List.flatMap_map]
    exact List.map_eq_flatMap.symm
  have texts : (single first :: others.map single).map SelectItem.text = first :: others := by
    simp [SelectItem.text, single, Function.comp_def]
  rw [← links, ← texts]
  exact spell_selectList (single first) (others.map single) apart

theorem written_columnList : written (columnListLexemes first others item items name) =
    (columnListText (first :: others) (item :: items) name).toList := by
  have listed : spell (linked first false (nameLinks others)) = (String.intercalate ", " (first :: others)).toList :=
    spell_nameList false
  have selected : spell (selectLexemes false item.first (item.linksBefore items)) =
      "SELECT ".toList ++ (String.intercalate ", " ((item :: items).map SelectItem.text)).toList ++
          " FROM t".toList := by
    rw [selectLexemes, spell, spell_append, spell_selectList]
    simp [spell, ofKeyword, ofName]
  simp only [columnListLexemes, written, spell, spell_append, listed, selected]
  delta columnListText
  simp [ofKeyword, ofName, opening, closing, mainLexemes, reference, spell]

theorem length_linked (first : String) (apart : Bool) (links : List (Lexeme × String)) :
    (linked first apart links).length = 2 * links.length + 1 := by
  induction links with
  | nil => rfl
  | cons link links ih =>
    simp only [linked, List.length_cons, List.flatMap_cons, List.length_append, List.length_nil] at ih ⊢
    omega

theorem length_columnListLexemes : (columnListLexemes first others item items name).length =
    2 * (first :: others).length + 2 * ((item :: items).flatMap SelectItem.columns).length + 14 := by
  rw [← columns_linksBefore]
  simp only [columnListLexemes, selectLexemes, mainLexemes, reference, nameLinks, length_linked, List.length_cons,
    List.length_append, List.length_map, List.length_nil]
  omega

private theorem plain_mark : opening.Plain ∧ closing.Plain := ⟨.mark (.inl rfl), .mark (.inr (.inl rfl))⟩

theorem isColumnName_cte : IsColumnName "cte" := ⟨by decide, by decide, by decide⟩

theorem plain_mainLexemes (named : IsColumnName name) : ∀ lexeme ∈ mainLexemes name, lexeme.Plain := by
  intro lexeme member
  simp only [mainLexemes, reference, List.mem_cons, List.mem_append, List.not_mem_nil, or_false] at member
  rcases member with rfl | (rfl | rfl | rfl) | rfl | rfl
  · exact plain_keyword (by decide) (by decide) true
  · exact plain_ofName isColumnName_cte true
  · exact .dot
  · exact plain_ofName named false
  · exact plain_keyword (by decide) (by decide) true
  · exact plain_ofName isColumnName_cte true

theorem plain_columnList (names : ∀ name ∈ first :: others, IsColumnName name) (named : IsColumnName name)
    (columns : ∀ column ∈ (item :: items).flatMap SelectItem.columns, IsColumnName column) :
    ∀ lexeme ∈ columnListLexemes first others item items name, lexeme.Plain := by
  intro lexeme member
  simp only [columnListLexemes, List.mem_cons, List.mem_append] at member
  rcases member with rfl | rfl | rfl | listed | rfl | rfl | rfl | selected | rfl | main
  · exact plain_keyword (by decide) (by decide) true
  · exact plain_ofName isColumnName_cte true
  · exact plain_mark.1
  · exact plain_linked ((names_nameLinks others).symm ▸ names) isLink_nameLinks lexeme listed
  · exact plain_mark.2
  · exact plain_keyword (by decide) (by decide) true
  · exact plain_mark.1
  · exact plain_selectLexemes (columns_linksBefore item items ▸ columns) isLink_of_mem_linksBefore lexeme selected
  · exact plain_mark.2
  · exact plain_mainLexemes named lexeme main

private theorem beside_mainLexemes : (closing :: mainLexemes name).IsChain Beside := by
  have source : (ofName name false :: [ofKeyword "FROM" true, ofName "cte" true]).IsChain Beside :=
    List.isChain_cons_cons.mpr ⟨beside_ofName.mpr ⟨rfl, nofun⟩,
      List.isChain_cons_cons.mpr ⟨name_beside _ "cte" rfl, List.isChain_singleton _⟩⟩
  have column : (reference name ++ [ofKeyword "FROM" true, ofName "cte" true]).IsChain Beside :=
    List.isChain_cons_cons.mpr ⟨beside_ofName.mpr ⟨rfl, nofun⟩,
      List.isChain_cons_cons.mpr ⟨name_beside _ name rfl, source⟩⟩
  have starts : Beside closing (ofKeyword "SELECT" true) := by unfold Beside; decide
  exact List.isChain_cons_cons.mpr ⟨starts, List.isChain_cons_cons.mpr ⟨name_beside _ "cte" rfl, column⟩⟩

theorem beside_columnList : (columnListLexemes first others item items name).IsChain Beside := by
  have beforeClosing (name : String) (apart : Bool) : Beside (ofName name apart) closing :=
    beside_ofName.mpr ⟨rfl, nofun⟩
  have body : (selectLexemes false item.first (item.linksBefore items) ++ closing :: mainLexemes name).IsChain Beside :=
    beside_selectLexemes isLink_of_mem_linksBefore
      (List.isChain_cons_cons.mpr ⟨beforeClosing "t" true, beside_mainLexemes⟩)
  have marked : (closing :: ofKeyword "AS" true :: opening ::
      (selectLexemes false item.first (item.linksBefore items) ++ closing :: mainLexemes name)).IsChain Beside := by
    refine List.isChain_cons_cons.mpr ⟨?_, List.isChain_cons_cons.mpr ⟨?_, List.isChain_cons_cons.mpr ⟨?_, body⟩⟩⟩
    all_goals unfold Beside; decide
  have list : (linked first false (nameLinks others) ++ closing :: ofKeyword "AS" true :: opening ::
      (selectLexemes false item.first (item.linksBefore items) ++ closing :: mainLexemes name)).IsChain Beside :=
    chain_linked isLink_nameLinks link_after_name (fun link name _ => name_beside link name rfl) fun name apart =>
      List.isChain_cons_cons.mpr ⟨beforeClosing name apart, marked⟩
  exact List.isChain_cons_cons.mpr ⟨name_beside _ "cte" rfl, List.isChain_cons_cons.mpr
    ⟨beside_ofName.mpr ⟨rfl, nofun⟩, List.isChain_cons_cons.mpr ⟨name_beside _ first rfl, list⟩⟩⟩

theorem legible_columnList (names : ∀ name ∈ first :: others, IsColumnName name) (named : IsColumnName name)
    (columns : ∀ column ∈ (item :: items).flatMap SelectItem.columns, IsColumnName column) :
    Legible (columnListLexemes first others item items name) where
  plain := plain_columnList names named columns
  beside := beside_columnList
  first lexeme found := by
    obtain rfl : ofKeyword "WITH" true = lexeme := Option.some.inj found
    exact ⟨rfl, nofun⟩

end Text

section Run

variable {limits : Limits} {first name : String} {others : List String} {item : SelectItem} {items : List SelectItem}

theorem parenKind_withColumns {state : Nesting} {before : Token} (last : state.tokens.back? = some before)
    (header : state.headers.head? = some state.depth) (name : before.kind = .name) :
    state.parenKind = .withColumns := by
  simp [parenKind, last, header, Token.isKeyword, name]

theorem parenKind_withQuery {state : Nesting} {before : Token} (last : state.tokens.back? = some before)
    (header : state.headers.head? = some state.depth) (keyword : before.kind = .keyword)
    (as : before.normalized = "AS") :
    state.parenKind = .withQuery := by
  have noSubquery : Keyword.precedesSubquery "AS" = false := by decide
  simp [parenKind, last, header, Token.isKeyword, keyword, as, noSubquery]

theorem normalForm_with : Keyword.normalForm "WITH" = "WITH" := by decide

theorem normalForm_as : Keyword.normalForm "AS" = "AS" := by decide

/-- The state in front of the column list. -/
def beforeList (start : Nesting) : Nesting :=
  let header := afterKeyword start "WITH" true
  header.push [header.tokenOf (ofName "cte" true)]

def listTokens (start : Nesting) (first : String) (others : List String) : List Token :=
  ((beforeList start).entered opening).flat (linked first false (nameLinks others))

/-- The state behind the column list. -/
def afterList (start : Nesting) (first : String) (others : List String) : Nesting :=
  let listed := ((beforeList start).entered opening).push (listTokens start first others)
  (beforeList start).grouped listed opening closing (listTokens start first others)

/-- The state in front of the body. -/
def beforeBody (start : Nesting) (first : String) (others : List String) : Nesting :=
  afterKeyword (afterList start first others) "AS" true

def mainTokens (state : Nesting) (name : String) : List Token :=
  let reading := afterKeyword state "SELECT" true
  let read := afterFlat reading (reference name)
  let naming := afterKeyword read "FROM" true
  state.tokenOf (ofKeyword "SELECT" true) ::
    (reading.flat (reference name) ++ read.tokenOf (ofKeyword "FROM" true) :: naming.flat [ofName "cte" true])

section Start

variable {start : Nesting}

theorem runs_beforeList (limits : Limits) (start : Nesting) :
    Runs limits start [ofKeyword "WITH" true, ofName "cte" true] (beforeList start) :=
  (runs_afterKeyword limits start "WITH" true).append (runs_ofName limits _ "cte" true)

theorem runs_beforeBody (deep : (beforeList start).depth < limits.maxNestingDepth) :
    Runs limits (beforeList start)
      (opening :: linked first false (nameLinks others) ++ [closing] ++ [ofKeyword "AS" true])
      (beforeBody start first others) := by
  have list : Runs limits ((beforeList start).entered opening) (linked first false (nameLinks others))
      (((beforeList start).entered opening).push (listTokens start first others)) :=
    runs_flat (flat_linked isLink_nameLinks)
  exact (runs_group rfl rfl deep list rfl rfl).append (runs_afterKeyword limits _ "AS" true)

theorem runs_main (limits : Limits) (state : Nesting) (name : String) :
    ∃ after, Runs limits state (mainLexemes name) after ∧
      after.tokens = state.tokens ++ (mainTokens state name).toArray ∧ after.opened = state.opened := by
  let reading := afterKeyword state "SELECT" true
  let read := afterFlat reading (reference name)
  let naming := afterKeyword read "FROM" true
  have column : Runs limits reading (reference name) read := by
    refine runs_flat fun lexeme member => ?_
    simp only [reference, List.mem_cons, List.not_mem_nil, or_false] at member
    rcases member with rfl | rfl | rfl <;> exact ⟨rfl, rfl⟩
  have source : Runs limits read [ofKeyword "FROM" true, ofName "cte" true] (afterFlat naming [ofName "cte" true]) :=
    (runs_afterKeyword limits read "FROM" true).append (runs_ofName limits naming "cte" true)
  refine ⟨_, (runs_afterKeyword limits state "SELECT" true).append (column.append source), ?_, rfl⟩
  simp [naming, read, reading, push, afterKeyword, afterFlat, passKeyword, mainTokens]

/-- Nothing came before the statement. -/
structure Fresh (start : Nesting) : Prop where
  tokens : start.tokens = #[]
  opened : start.opened = []
  headers : start.headers = []

variable (fresh : Fresh start)
include fresh

theorem beforeList_headers : (beforeList start).headers = [0] ∧ (beforeList start).depth = 0 := by
  have depth : start.depth = 0 := by rw [Nesting.depth, fresh.opened]; rfl
  refine ⟨?_, depth⟩
  simp [beforeList, push, afterKeyword, passKeyword, normalized_keyword, normalForm_with, headersAfter, fresh.tokens,
    fresh.headers, depth]

theorem beforeBody_headers (first : String) (others : List String) :
    (beforeBody start first others).headers = [0] ∧ (beforeBody start first others).depth = 0 := by
  obtain ⟨headers, depth⟩ := beforeList_headers fresh
  have opened : (beforeList start).opened = [] := fresh.opened
  have noStatement : Keyword.startsStatement "AS" = false := by decide
  refine ⟨?_, depth⟩
  simp [beforeBody, afterList, afterKeyword, passKeyword, normalized_keyword, normalForm_as, headersAfter, noStatement,
    grouped, push, entered, headers, opened]

theorem parenKind_beforeList : (beforeList start).parenKind = .withColumns := by
  obtain ⟨headers, depth⟩ := beforeList_headers fresh
  let before := (afterKeyword start "WITH" true).tokenOf (ofName "cte" true)
  have last : (beforeList start).tokens.back? = some before := by simp [beforeList, push, before]
  exact parenKind_withColumns last (by rw [headers, depth]; rfl) rfl

theorem parenKind_beforeBody : (beforeBody start first others).parenKind = .withQuery := by
  obtain ⟨headers, depth⟩ := beforeBody_headers fresh first others
  let before := (afterList start first others).tokenOf (ofKeyword "AS" true)
  have last : (beforeBody start first others).tokens.back? = some before := by
    simp [beforeBody, afterKeyword, passKeyword, before]
  exact parenKind_withQuery last (by rw [headers, depth]; rfl) rfl normalForm_as

omit fresh in
theorem tokens_beforeBody : (beforeBody start first others).tokens.toList = (beforeList start).tokens.toList ++
    (beforeList start).group (((beforeList start).entered opening).push (listTokens start first others)) opening closing
      (listTokens start first others) ++ [(afterList start first others).tokenOf (ofKeyword "AS" true)] := by
  simp [beforeBody, afterList, afterKeyword, passKeyword, grouped]

theorem tokens_beforeList : (beforeList start).tokens.toList =
    [start.tokenOf (ofKeyword "WITH" true), (afterKeyword start "WITH" true).tokenOf (ofName "cte" true)] := by
  simp [beforeList, push, afterKeyword, passKeyword, fresh.tokens]

end Start

/-- The tokens of the statement; `selected` is the state at the end of the body. -/
def parts (start selected : Nesting) (first : String) (others : List String) (item : SelectItem)
    (items : List SelectItem)
    (name : String) : DeclaredQuery :=
  let column := beforeList start
  let listed := (column.entered opening).push (listTokens start first others)
  let reading := beforeBody start first others
  let body := selectTokens (reading.entered opening) false item.first (item.linksBefore items)
  let main := mainTokens (reading.grouped selected opening closing body) name
  { header := start.tokenOf (ofKeyword "WITH" true)
    query := (afterKeyword start "WITH" true).tokenOf (ofName "cte" true)
    opening := { NestingRun.openingToken column opening with
      matching := some (column.tokens.size + (listTokens start first others).length + 1) }
    list := listTokens start first others
    closing :=
      NestingRun.closingToken listed closing ⟨column.tokens.size, column.parenKind, column.lastKeyword⟩ column.opened
    as := (afterList start first others).tokenOf (ofKeyword "AS" true)
    bodyOpening :=
  { NestingRun.openingToken reading opening with matching := some (reading.tokens.size + body.length + 1) }
    body := body
    bodyClosing :=
      NestingRun.closingToken selected closing
        ⟨reading.tokens.size, reading.parenKind, reading.lastKeyword⟩ reading.opened
    main := (reading.grouped selected opening closing body).tokenOf (ofKeyword "SELECT" true)
    rest := main.tail }

theorem runs_columnList {start : Nesting} (fresh : Fresh start) (deep : 0 < limits.maxNestingDepth) :
    ∃ selected after, Runs limits start (columnListLexemes first others item items name) after ∧ after.opened = [] ∧
      after.tokens = (parts start selected first others item items name).sequence.tokens := by
  obtain ⟨headers, depth⟩ := beforeBody_headers fresh first others
  let reading := beforeBody start first others
  let body := selectTokens (reading.entered opening) false item.first (item.linksBefore items)
  have unheaded : (reading.entered opening).headers.head? ≠ some (reading.entered opening).depth := by
    have inner : (reading.entered opening).depth = 1 := congrArg (· + 1) depth
    have outer : (reading.entered opening).headers = [0] := headers
    rw [inner, outer]
    decide
  obtain ⟨selected, run, tokens, opened, -⟩ : ∃ selected, Runs limits (reading.entered opening)
      (selectLexemes false item.first (item.linksBefore items)) selected ∧ selected.tokens = _ ∧
          selected.opened = _ ∧ _ :=
    runs_select unheaded isLink_of_mem_linksBefore
  have selects : Runs limits reading (opening :: selectLexemes false item.first (item.linksBefore items) ++ [closing])
      (reading.grouped selected opening closing body) := runs_group rfl rfl (depth ▸ deep) run opened tokens
  obtain ⟨after, main, last, closed⟩ := runs_main limits (reading.grouped selected opening closing body) name
  have list : Runs limits (beforeList start)
      (opening :: linked first false (nameLinks others) ++ [closing] ++ [ofKeyword "AS" true]) reading :=
    runs_beforeBody ((beforeList_headers fresh).2 ▸ deep)
  refine ⟨selected, after, ?_, ?_, ?_⟩
  · have whole := (runs_beforeList limits start).append (list.append (selects.append main))
    simpa [columnListLexemes] using whole
  · exact closed.trans fresh.opened
  · have inner : (reading.grouped selected opening closing body).tokens =
        reading.tokens ++ (reading.group selected opening closing body).toArray := rfl
    apply Array.toList_inj.mp
    rw [last, inner, Array.toList_append, Array.toList_append, tokens_beforeBody, tokens_beforeList fresh]
    simp only [group, List.append_assoc, List.cons_append, List.nil_append]
    rfl

section Parts

variable {start selected : Nesting}

theorem kind_listTokens : ∀ token ∈ listTokens start first others, token.kind = .name ∨ token.kind = .punctuation := by
  intro token member
  obtain ⟨lexeme, inside, position, rfl⟩ := mem_flat member
  rcases mem_linked inside with ⟨name, -, apart, rfl⟩ | link
  · exact .inl rfl
  · simp only [nameLinks, List.map_map, List.mem_map] at link
    obtain ⟨name, -, rfl⟩ := link
    exact .inr rfl

theorem names_listTokens :
    (listTokens start first others).filterMap (fun token => name? (lexemeOf token)) = first :: others := by
  have same : (listTokens start first others).filterMap (fun token => name? (lexemeOf token)) =
      (linked first false (nameLinks others)).filterMap name? := filterMap_flat fun _ _ => rfl
  rw [same, names_linked isLink_nameLinks, names_nameLinks]

theorem keyword_mainTokens (state : Nesting) : ∀ token ∈ mainTokens state name, token.paren = none ∧
    (token.kind = .keyword → token.normalized = "SELECT" ∨ token.normalized = "FROM") := by
  have flat {state : Nesting} {lexemes : List Lexeme} (plain : ∀ lexeme ∈ lexemes, lexeme.kind ≠ .keyword) :
      ∀ token ∈ state.flat lexemes, token.paren = none ∧
        (token.kind = .keyword → token.normalized = "SELECT" ∨ token.normalized = "FROM") := by
    intro token member
    obtain ⟨lexeme, inside, position, rfl⟩ := mem_flat member
    exact ⟨rfl, fun keyword => absurd keyword (plain lexeme inside)⟩
  intro token member
  simp only [mainTokens, List.mem_cons, List.mem_append] at member
  rcases member with rfl | column | rfl | source
  · exact ⟨rfl, fun _ => .inl normalForm_select⟩
  · refine flat (fun lexeme inside => ?_) token column
    simp only [reference, List.mem_cons, List.not_mem_nil, or_false] at inside
    rcases inside with rfl | rfl | rfl <;> exact nofun
  · exact ⟨rfl, fun _ => .inr normalForm_from⟩
  · refine flat (fun lexeme inside => ?_) token source
    obtain rfl := List.mem_singleton.mp inside
    exact nofun

theorem size_beforeList (fresh : Fresh start) : (beforeList start).tokens.size = 2 := by
  rw [← Array.length_toList, tokens_beforeList fresh]
  rfl

theorem size_beforeBody (fresh : Fresh start) :
    (beforeBody start first others).tokens.size = (listTokens start first others).length + 5 := by
  rw [← Array.length_toList, tokens_beforeBody, List.length_append, List.length_append, Array.length_toList,
    size_beforeList fresh]
  simp only [group, List.length_append, List.length_cons, List.length_nil]
  omega

theorem isSelectToken_body (columns : ∀ column ∈ (item :: items).flatMap SelectItem.columns, IsColumnName column) :
    ∀ token ∈ (parts start selected first others item items name).body, IsSelectToken token :=
  isSelectToken (columns_linksBefore item items ▸ columns) isLink_of_mem_linksBefore

theorem readable_parts (fresh : Fresh start)
    (columns : ∀ column ∈ (item :: items).flatMap SelectItem.columns, IsColumnName column) :
    (parts start selected first others item items name).Readable where
  header := ⟨rfl, normalForm_with⟩
  query := rfl
  opening := by
    refine ⟨rfl, ?_, ?_⟩
    · show some (ParenRole.mk (beforeList start).parenKind .opening) = _
      rw [parenKind_beforeList fresh]
    · show some ((beforeList start).tokens.size + (listTokens start first others).length + 1) = _
      rw [size_beforeList fresh, listEnd]
      congr 1
      exact Nat.add_right_comm _ _ _
  list token member := by
    rcases kind_listTokens token member with kind | kind <;> (rw [kind]; decide)
  closing := rfl
  as := ⟨rfl, normalForm_as⟩
  bodyOpening := by
    refine ⟨?_, ?_⟩
    · show some (ParenRole.mk (beforeBody start first others).parenKind .opening) = _
      rw [parenKind_beforeBody fresh]
    · show some ((beforeBody start first others).tokens.size + _ + 1) = _
      rw [size_beforeBody fresh, bodyEnd, listEnd]
      congr 1
      let body :=
        selectTokens ((beforeBody start first others).entered opening) false item.first (item.linksBefore items)
      show (listTokens start first others).length + 5 + body.length + 1 =
        3 + (listTokens start first others).length + 3 + body.length
      omega
  main := by
    refine ⟨rfl, ?_⟩
    show Keyword.normalForm "SELECT" ≠ "AS"
    rw [normalForm_select]
    decide
  onlyHeader token member keyword := by
    simp only [DeclaredQuery.tail, List.mem_cons, List.mem_append] at member
    have known : token.normalized = "AS" ∨ token.normalized = "SELECT" ∨ token.normalized = "FROM" := by
      rcases member with rfl | rfl | list | rfl | rfl | rfl | body | rfl | rfl | rest
      · cases keyword
      · cases keyword
      · rcases kind_listTokens token list with kind | kind <;> cases kind.symm.trans keyword
      · cases keyword
      · exact .inl normalForm_as
      · cases keyword
      · exact .inr ((isSelectToken_body columns token body).keyword keyword)
      · cases keyword
      · exact .inr (.inl normalForm_select)
      · exact .inr ((keyword_mainTokens _ token (List.mem_of_mem_tail rest)).2 keyword)
    rcases known with same | same | same <;> (rw [same]; decide)

theorem noSubquery (fresh : Fresh start)
    (columns : ∀ column ∈ (item :: items).flatMap SelectItem.columns, IsColumnName column) :
    ∀ token ∈ (parts start selected first others item items name).sequence.tokens,
      token.paren ≠ some ⟨.subquery, .closing⟩ := by
  intro token member
  have plain {token : Token} (free : token.paren = none) : token.paren ≠ some ⟨.subquery, .closing⟩ := by
    rw [free]
    exact nofun
  simp only [DeclaredQuery.sequence, DeclaredQuery.tail, List.mem_toArray, List.mem_cons, List.mem_append] at member
  rcases member with rfl | rfl | rfl | list | rfl | rfl | rfl | body | rfl | rfl | rest
  · exact nofun
  · exact nofun
  · exact fun same => nomatch congrArg (Option.map (·.side)) same
  · obtain ⟨lexeme, -, position, rfl⟩ := mem_flat list
    exact nofun
  · show some (ParenRole.mk (beforeList start).parenKind .closing) ≠ _
    rw [parenKind_beforeList fresh]
    decide
  · exact nofun
  · exact fun same => nomatch congrArg (Option.map (·.side)) same
  · exact plain (isSelectToken_body columns token body).paren
  · show some (ParenRole.mk (beforeBody start first others).parenKind .closing) ≠ _
    rw [parenKind_beforeBody fresh]
    decide
  · exact nofun
  · exact plain (keyword_mainTokens _ token (List.mem_of_mem_tail rest)).1

end Parts

end Run

end Proofs.ColumnListStatement

end QueryFacts

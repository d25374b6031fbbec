import QueryFacts.Proofs.CoherentFacts
import QueryFacts.Proofs.PlainText
import QueryFacts.Proofs.StatementRun

/-! Statements that select columns, or sums and products of columns, from one table. -/

namespace QueryFacts
open Text

namespace Lexeme

def ofKeyword (word : String) (spaceBefore : Bool) : Lexeme := ⟨.keyword, word, none, spaceBefore⟩

def ofName (name : String) (spaceBefore : Bool) : Lexeme := ⟨.name, name, none, spaceBefore⟩

def comma : Lexeme := ⟨.punctuation, ",", none, false⟩

end Lexeme

/-- A name that is written without quotes and is no keyword. -/
structure IsUnquoted (name : String) : Prop where
  spelled : isIdentifier name.toList = true
  free : Keyword.isReserved (upper name) = false

instance (name : String) : Decidable (IsUnquoted name) :=
  decidable_of_iff (isIdentifier name.toList = true ∧ Keyword.isReserved (upper name) = false)
    ⟨fun ⟨spelled, free⟩ => ⟨spelled, free⟩, fun known => ⟨known.spelled, known.free⟩⟩

/-- The name of a column: unquoted, no keyword, and no function that is never a column. -/
structure IsColumnName (name : String) : Prop where
  spelled : isIdentifier name.toList = true
  free : Keyword.isReserved (upper name) = false
  column : Keyword.isIgnoredFunction (Keyword.normalForm name) = false

instance (name : String) : Decidable (IsColumnName name) :=
  decidable_of_iff (isIdentifier name.toList = true ∧ Keyword.isReserved (upper name) = false ∧
      Keyword.isIgnoredFunction (Keyword.normalForm name) = false)
    ⟨fun ⟨spelled, free, column⟩ => ⟨spelled, free, column⟩, fun known => ⟨known.spelled, known.free, known.column⟩⟩

theorem IsColumnName.unquoted {name : String} (known : IsColumnName name) : IsUnquoted name :=
  ⟨known.spelled, known.free⟩

inductive Operator where
  | plus
  | minus
  | times
  | divided

namespace Operator

def symbol : Operator → String
  | plus => "+"
  | minus => "-"
  | times => "*"
  | divided => "/"

def lexeme (operator : Operator) : Lexeme := ⟨.operator, operator.symbol, none, true⟩

end Operator

/-- An item of a select list: a column, or several with operators between them. -/
structure SelectItem where
  first : String
  more : List (Operator × String) := []

namespace SelectItem

def columns (item : SelectItem) : List String := item.first :: item.more.map (·.2)

def text (item : SelectItem) : String :=
  item.first ++ String.join (item.more.map fun (operator, name) => " " ++ operator.symbol ++ " " ++ name)

def links (item : SelectItem) : List (Lexeme × String) := item.more.map fun (operator, name) => (operator.lexeme, name)

/-- What follows the first name of an item, with more items after it. -/
def linksBefore (item : SelectItem) (rest : List SelectItem) : List (Lexeme × String) :=
  item.links ++ rest.flatMap fun next => (.comma, next.first) :: next.links

end SelectItem

end QueryFacts

namespace QueryFacts.Proofs.SelectList
open Text Lexer Lexeme PlainText Nesting StatementRun

/-- Names with a comma or an operator between one and the next. -/
def linked (first : String) (spaceBefore : Bool) (links : List (Lexeme × String)) : List Lexeme :=
  ofName first spaceBefore :: links.flatMap fun (link, name) => [link, ofName name true]

def IsLink (lexeme : Lexeme) : Prop := lexeme = comma ∨ ∃ operator : Operator, lexeme = operator.lexeme

section Lexemes

variable {first : String} {spaceBefore : Bool} {links : List (Lexeme × String)}

theorem mem_linked {lexeme : Lexeme} (member : lexeme ∈ linked first spaceBefore links) :
    (∃ name ∈ first :: links.map (·.2), ∃ apart, lexeme = ofName name apart) ∨ lexeme ∈ links.map (·.1) := by
  rcases List.mem_cons.mp member with rfl | later
  · exact .inl ⟨first, List.mem_cons_self, spaceBefore, rfl⟩
  · obtain ⟨⟨link, name⟩, inside, here⟩ := List.mem_flatMap.mp later
    rcases List.mem_cons.mp here with rfl | last
    · exact .inr (List.mem_map.mpr ⟨_, inside, rfl⟩)
    · obtain rfl := List.mem_singleton.mp last
      exact .inl ⟨name, List.mem_cons_of_mem _ (List.mem_map.mpr ⟨_, inside, rfl⟩), true, rfl⟩

theorem plain_ofName {name : String} (known : IsColumnName name) (apart : Bool) : (ofName name apart).Plain :=
  .word known.spelled (by simp [known.free])

theorem plain_link {lexeme : Lexeme} (link : IsLink lexeme) : lexeme.Plain := by
  rcases link with rfl | ⟨operator, rfl⟩
  · exact .mark (.inr (.inr rfl))
  · cases operator with
    | plus => exact .operator (.inl rfl)
    | minus => exact .operator (.inr (.inl rfl))
    | times => exact .star (.inl rfl)
    | divided => exact .operator (.inr (.inr (.inl rfl)))

theorem plain_linked (names : ∀ name ∈ first :: links.map (·.2), IsColumnName name)
    (marks : ∀ link ∈ links.map (·.1), IsLink link) : ∀ lexeme ∈ linked first spaceBefore links, lexeme.Plain := by
  intro lexeme member
  rcases mem_linked member with ⟨name, inside, apart, rfl⟩ | link
  · exact plain_ofName (names name inside) apart
  · exact plain_link (marks lexeme link)

theorem beside_ofName {name : String} {apart : Bool} {next : Lexeme} :
    Beside (ofName name apart) next ↔
      (next.spaceBefore || next.kind == .punctuation || next.kind == .dot) = true ∧ next.kind ≠ .wildcard := by
  unfold Beside glues keepsKind endsKeyword takesBy isJoinPrefix isKeyword isPunctuation ofName
  cases next.kind <;> simp

theorem name_beside (before : Lexeme) (name : String) {apart : Bool}
    (glued : (apart || glues before (ofName name apart)) = true) : Beside before (ofName name apart) := by
  refine ⟨glued, ?_, ?_⟩
  · simp [keepsKind, isKeyword, isPunctuation, ofName]
  · simp [endsKeyword, isJoinPrefix, isWord, isKeyword, ofName]

theorem link_after_name (name : String) (apart : Bool) (link : Lexeme) (known : IsLink link) :
    Beside (ofName name apart) link := by
  rcases known with rfl | ⟨operator, rfl⟩
  · exact beside_ofName.mpr ⟨rfl, nofun⟩
  · exact beside_ofName.mpr ⟨rfl, nofun⟩

theorem bare_of_unquoted {name : String} (known : IsUnquoted name) : '.' ∉ name.toList := fun dot =>
  absurd (isIdentifierPart_of_mem known.spelled dot) (by decide)

theorem bare_of_column {name : String} (known : IsColumnName name) : '.' ∉ name.toList :=
  bare_of_unquoted known.unquoted

/-- What holds between a name and a link, and between a link and a name, holds along the list. -/
theorem chain_linked {related : Lexeme → Lexeme → Prop} {rest : List Lexeme}
    (marks : ∀ link ∈ links.map (·.1), IsLink link)
    (after : ∀ name apart link, IsLink link → related (ofName name apart) link)
    (before : ∀ link name, IsLink link → related link (ofName name true))
    (ends : ∀ name apart, (ofName name apart :: rest).IsChain related) :
    (linked first spaceBefore links ++ rest).IsChain related := by
  induction links generalizing first spaceBefore with
  | nil => exact ends first spaceBefore
  | cons link links ih =>
    obtain ⟨mark, name⟩ := link
    have known : IsLink mark := marks mark List.mem_cons_self
    have later : (linked name true links ++ rest).IsChain related :=
      ih fun other member => marks other (List.mem_cons_of_mem _ member)
    exact List.isChain_cons_cons.mpr ⟨after first spaceBefore mark known,
      List.isChain_cons_cons.mpr ⟨before mark name known, later⟩⟩

/-- The name that a lexeme is. -/
def name? (lexeme : Lexeme) : Option String := if lexeme.kind = .name then some lexeme.value else none

theorem names_linked (marks : ∀ link ∈ links.map (·.1), IsLink link) :
    (linked first spaceBefore links).filterMap name? = first :: links.map (·.2) := by
  induction links generalizing first spaceBefore with
  | nil => rfl
  | cons link links ih =>
    obtain ⟨mark, name⟩ := link
    have later : (linked name true links).filterMap name? = name :: links.map (·.2) :=
      ih fun other member => marks other (List.mem_cons_of_mem _ member)
    have other : mark.kind ≠ .name := by
      rcases marks mark List.mem_cons_self with rfl | ⟨operator, rfl⟩ <;> exact nofun
    rw [List.map_cons, ← later]
    simp [linked, ofName, name?, other]

theorem flat_linked (marks : ∀ link ∈ links.map (·.1), IsLink link) :
    ∀ lexeme ∈ linked first spaceBefore links, lexeme.side? = none ∧ lexeme.isKeyword = false := by
  intro lexeme member
  rcases mem_linked member with ⟨name, -, apart, rfl⟩ | link
  · exact ⟨rfl, rfl⟩
  · rcases marks lexeme link with rfl | ⟨operator, rfl⟩
    · exact ⟨by decide, rfl⟩
    · exact ⟨rfl, rfl⟩

end Lexemes

section Text

variable {item : SelectItem} {rest : List SelectItem}

theorem isLink_of_mem_links : ∀ link ∈ item.links.map (·.1), IsLink link := by
  intro link member
  simp only [SelectItem.links, List.map_map, List.mem_map] at member
  obtain ⟨⟨operator, name⟩, -, rfl⟩ := member
  exact .inr ⟨operator, rfl⟩

theorem isLink_of_mem_linksBefore : ∀ link ∈ (item.linksBefore rest).map (·.1), IsLink link := by
  intro link member
  rw [SelectItem.linksBefore, List.map_append, List.map_flatMap] at member
  rcases List.mem_append.mp member with inside | later
  · exact isLink_of_mem_links link inside
  · obtain ⟨next, -, here⟩ := List.mem_flatMap.mp later
    rcases List.mem_cons.mp here with rfl | inside
    · exact .inl rfl
    · exact isLink_of_mem_links link inside

theorem columns_linksBefore (item : SelectItem) (rest : List SelectItem) :
    item.first :: (item.linksBefore rest).map (·.2) = (item :: rest).flatMap SelectItem.columns := by
  have links (item : SelectItem) : item.links.map (·.2) = item.more.map (·.2) := by
    rw [SelectItem.links, List.map_map]
    rfl
  rw [SelectItem.linksBefore, List.map_append, List.map_flatMap, List.flatMap_cons, links, SelectItem.columns,
    List.cons_append]
  simp only [List.map_cons, links]
  rfl

private theorem spell_links (links : List (Lexeme × String)) :
    spell (links.flatMap fun (link, name) => [link, ofName name true]) =
      links.flatMap fun (link, name) => spell [link, ofName name true] := by
  induction links with
  | nil => rfl
  | cons link links ih => rw [List.flatMap_cons, List.flatMap_cons, spell_append, ih]

theorem spell_linked (first : String) (apart : Bool) (links : List (Lexeme × String)) :
    spell (linked first apart links) = (if apart then [' '] else []) ++ first.toList ++
      links.flatMap fun (link, name) => spell [link, ofName name true] := by
  rw [linked, spell, spell_links]
  rfl

theorem toList_text (item : SelectItem) : item.text.toList =
    item.first.toList ++ item.links.flatMap fun (link, name) => spell [link, ofName name true] := by
  rw [SelectItem.text, String.toList_append, String.toList_join, SelectItem.links, List.flatMap_map, List.flatMap_map]
  congr 2
  funext ⟨operator, name⟩
  simp [spell, Operator.lexeme, ofName]

theorem intercalate_cons (mark first : List Char) (rest : List (List Char)) :
    List.intercalate mark (first :: rest) = first ++ rest.flatMap (mark ++ ·) := by
  induction rest generalizing first with
  | nil => simp
  | cons next rest ih => rw [List.intercalate_cons_cons, ih, List.flatMap_cons, List.append_assoc, List.append_assoc]

/-- A select list is written with its items apart. -/
theorem spell_selectList (item : SelectItem) (rest : List SelectItem) (apart : Bool) :
    spell (linked item.first apart (item.linksBefore rest)) =
      (if apart then [' '] else []) ++ (String.intercalate ", " ((item :: rest).map SelectItem.text)).toList := by
  have others : (rest.flatMap fun next => (comma, next.first) :: next.links).flatMap
      (fun (link, name) => spell [link, ofName name true]) = (rest.map (·.text.toList)).flatMap (", ".toList ++ ·) := by
    rw [List.flatMap_assoc, List.flatMap_map]
    congr 1
    funext next
    rw [List.flatMap_cons, toList_text]
    simp [spell, comma, ofName]
  rw [spell_linked, SelectItem.linksBefore, List.flatMap_append, others, String.toList_intercalate, List.map_cons,
    List.map_cons, intercalate_cons, toList_text, List.map_map]
  simp only [List.append_assoc]
  rfl

end Text

/-- `SELECT` names with links between them `FROM t`. -/
def selectLexemes (spaceBefore : Bool) (first : String) (links : List (Lexeme × String)) : List Lexeme :=
  ofKeyword "SELECT" spaceBefore :: (linked first true links ++ [ofKeyword "FROM" true, ofName "t" true])

section Statement

variable {spaceBefore : Bool} {first : String} {links : List (Lexeme × String)}

theorem isColumnName_t : IsColumnName "t" := ⟨by decide, by decide, by decide⟩

theorem plain_keyword {word : String} (spelled : isIdentifier word.toList = true)
    (reserved : Keyword.isReserved (upper word) = true) (apart : Bool) : (ofKeyword word apart).Plain :=
  .word spelled (by simp [reserved])

theorem plain_selectLexemes (names : ∀ name ∈ first :: links.map (·.2), IsColumnName name)
    (marks : ∀ link ∈ links.map (·.1), IsLink link) :
    ∀ lexeme ∈ selectLexemes spaceBefore first links, lexeme.Plain := by
  intro lexeme member
  rcases List.mem_cons.mp member with rfl | later
  · exact plain_keyword (by decide) (by decide) _
  · rcases List.mem_append.mp later with inside | last
    · exact plain_linked names marks lexeme inside
    · simp only [List.mem_cons, List.not_mem_nil, or_false] at last
      rcases last with rfl | rfl
      · exact plain_keyword (by decide) (by decide) _
      · exact plain_ofName isColumnName_t true

theorem beside_selectLexemes {rest : List Lexeme} (marks : ∀ link ∈ links.map (·.1), IsLink link)
    (ends : (ofName "t" true :: rest).IsChain Beside) :
    (selectLexemes spaceBefore first links ++ rest).IsChain Beside := by
  have tail : (linked first true links ++ (ofKeyword "FROM" true :: ofName "t" true :: rest)).IsChain Beside := by
    refine chain_linked marks link_after_name (fun link name _ => name_beside link name rfl) fun name apart => ?_
    exact List.isChain_cons_cons.mpr ⟨beside_ofName.mpr ⟨rfl, nofun⟩,
      List.isChain_cons_cons.mpr ⟨name_beside _ "t" rfl, ends⟩⟩
  rw [selectLexemes, List.cons_append, List.append_assoc]
  exact List.isChain_cons_cons.mpr ⟨name_beside _ first rfl, tail⟩

theorem legible_selectLexemes (names : ∀ name ∈ first :: links.map (·.2), IsColumnName name)
    (marks : ∀ link ∈ links.map (·.1), IsLink link) : Legible (selectLexemes true first links) where
  plain := plain_selectLexemes names marks
  beside := by
    have whole : (selectLexemes true first links ++ []).IsChain Beside :=
      beside_selectLexemes marks (List.isChain_singleton _)
    rwa [List.append_nil] at whole
  first lexeme found := by
    obtain rfl : ofKeyword "SELECT" true = lexeme := Option.some.inj found
    exact ⟨rfl, nofun⟩

def afterKeyword (state : Nesting) (word : String) (apart : Bool) : Nesting :=
  state.passKeyword (state.tokenOf (ofKeyword word apart))

def afterFlat (state : Nesting) (lexemes : List Lexeme) : Nesting := state.push (state.flat lexemes)

/-- The tokens of the statement where it follows on from a state. -/
def selectTokens (state : Nesting) (spaceBefore : Bool) (first : String)
    (links : List (Lexeme × String)) : List Token :=
  let listing := afterKeyword state "SELECT" spaceBefore
  let listed := afterFlat listing (linked first true links)
  state.tokenOf (ofKeyword "SELECT" spaceBefore) :: (listing.flat (linked first true links) ++
    [listed.tokenOf (ofKeyword "FROM" true), (afterKeyword listed "FROM" true).tokenOf (ofName "t" true)])

/-- What a list of the tokens says of their texts, a list of the lexemes says. -/
theorem map_selectTokens {α : Type} {ofToken : Token → α} {ofLexeme : Lexeme → α} (state : Nesting)
    (same : ∀ (state : Nesting) lexeme position, ofToken { state.tokenOf lexeme with position } = ofLexeme lexeme) :
    (selectTokens state spaceBefore first links).map ofToken =
        (selectLexemes spaceBefore first links).map ofLexeme := by
  have alone (state : Nesting) (lexeme : Lexeme) : ofToken (state.tokenOf lexeme) = ofLexeme lexeme :=
    same state lexeme _
  simp only [selectTokens, selectLexemes, List.map_cons, List.map_append, List.map_nil, map_flat (same _), alone]

theorem normalForm_select : Keyword.normalForm "SELECT" = "SELECT" := by decide

theorem normalForm_from : Keyword.normalForm "FROM" = "FROM" := by decide

theorem normalized_keyword (state : Nesting) (word : String) (apart : Bool) :
    (state.tokenOf (ofKeyword word apart)).normalized = Keyword.normalForm word := rfl

theorem runs_afterKeyword (limits : Limits) (state : Nesting) (word : String) (apart : Bool) :
    Runs limits state [ofKeyword word apart] (afterKeyword state word apart) := runs_keyword rfl

theorem runs_ofName (limits : Limits) (state : Nesting) (name : String) (apart : Bool) :
    Runs limits state [ofName name apart] (state.push [state.tokenOf (ofName name apart)]) :=
  runs_flat (by simp [ofName, isKeyword, side?, isPunctuation])

theorem runs_select {limits : Limits} {state : Nesting} (unheaded : state.headers.head? ≠ some state.depth)
    (marks : ∀ link ∈ links.map (·.1), IsLink link) :
    ∃ after, Runs limits state (selectLexemes spaceBefore first links) after ∧
      after.tokens = state.tokens ++ (selectTokens state spaceBefore first links).toArray ∧
        after.opened = state.opened ∧
      after.headers = state.headers ∧ after.awaitsColumns = state.awaitsColumns := by
  let listing := afterKeyword state "SELECT" spaceBefore
  let listed := afterFlat listing (linked first true links)
  let naming := afterKeyword listed "FROM" true
  have list : Runs limits listing (linked first true links) listed := runs_flat (flat_linked marks)
  have source :
      Runs limits listed [ofKeyword "FROM" true, ofName "t" true] (naming.push [naming.tokenOf (ofName "t" true)]) :=
    (runs_afterKeyword limits listed "FROM" true).append (runs_ofName limits naming "t" true)
  refine ⟨_, (runs_afterKeyword limits state "SELECT" spaceBefore).append (list.append source), ?_, rfl, ?_, rfl⟩
  · simp [naming, listed, listing, Nesting.push, afterKeyword, afterFlat, passKeyword, selectTokens]
  · simp [naming, listed, listing, Nesting.push, afterKeyword, afterFlat, passKeyword, headersAfter, normalized_keyword,
      normalForm_select, normalForm_from, unheaded, Keyword.startsStatement]

/-- What the tokens of the statement are apart from the words in them. -/
structure IsSelectToken (token : Token) : Prop where
  kind : token.kind = .keyword ∨ token.kind = .name ∨ token.kind = .punctuation ∨ token.kind = .operator
  paren : token.paren = none
  keyword : token.kind = .keyword → token.normalized = "SELECT" ∨ token.normalized = "FROM"
  name : token.kind = .name → Keyword.isIgnoredFunction token.normalized = false
  clause : token.kind = .name → token.lastKeyword.map (·.word) = some "SELECT" ∨
    token.lastKeyword.map (·.word) = some "FROM"
  value : token.value ≠ "::"

theorem lastKeyword_afterKeyword (state : Nesting) {word : String} (normal : Keyword.normalForm word = word)
    (significant : Keyword.isInsignificant word = false) (apart : Bool) :
    (afterKeyword state word apart).lastKeyword.map (·.word) = some word := by
  simp only [afterKeyword, passKeyword, normalized_keyword, normal, significant, Bool.false_eq_true, if_false]
  rfl

theorem lastKeyword_select (state : Nesting) (apart : Bool) :
    (afterKeyword state "SELECT" apart).lastKeyword.map (·.word) = some "SELECT" :=
  lastKeyword_afterKeyword state normalForm_select (by decide) apart

theorem lastKeyword_from (state : Nesting) (apart : Bool) :
    (afterKeyword state "FROM" apart).lastKeyword.map (·.word) = some "FROM" :=
  lastKeyword_afterKeyword state normalForm_from (by decide) apart

private theorem isSelectToken_ofName {state : Nesting} (position : Nat) {name : String} (known : IsColumnName name)
    (apart : Bool)
    (clause : state.lastKeyword.map (·.word) = some "SELECT" ∨ state.lastKeyword.map (·.word) = some "FROM") :
    IsSelectToken { state.tokenOf (ofName name apart) with position } where
  kind := .inr (.inl rfl)
  paren := rfl
  keyword := nofun
  name _ := known.column
  clause _ := clause
  value := by
    rintro rfl
    exact absurd known.spelled (by decide)

private theorem isSelectToken_link (state : Nesting) (position : Nat) {link : Lexeme} (known : IsLink link) :
    IsSelectToken { state.tokenOf link with position } := by
  rcases known with rfl | ⟨operator, rfl⟩
  · exact ⟨.inr (.inr (.inl rfl)), rfl, nofun, nofun, nofun, show "," ≠ "::" by decide⟩
  · refine ⟨.inr (.inr (.inr rfl)), rfl, nofun, nofun, nofun, show operator.symbol ≠ "::" from ?_⟩
    cases operator <;> decide

private theorem isSelectToken_keyword (state : Nesting) {word : String} (known : word = "SELECT" ∨ word = "FROM")
    (apart : Bool) : IsSelectToken (state.tokenOf (ofKeyword word apart)) where
  kind := .inl rfl
  paren := rfl
  keyword _ := by
    rw [normalized_keyword]
    rcases known with rfl | rfl
    · exact .inl normalForm_select
    · exact .inr normalForm_from
  name := nofun
  clause := nofun
  value := by
    rcases known with rfl | rfl
    · exact show "SELECT" ≠ "::" by decide
    · exact show "FROM" ≠ "::" by decide

theorem isSelectToken {state : Nesting} (names : ∀ name ∈ first :: links.map (·.2), IsColumnName name)
    (marks : ∀ link ∈ links.map (·.1), IsLink link) :
    ∀ token ∈ selectTokens state spaceBefore first links, IsSelectToken token := by
  intro token member
  simp only [selectTokens, List.mem_cons, List.mem_append, List.not_mem_nil, or_false] at member
  rcases member with rfl | inside | rfl | rfl
  · exact isSelectToken_keyword state (.inl rfl) spaceBefore
  · obtain ⟨lexeme, here, position, rfl⟩ := mem_flat inside
    rcases mem_linked here with ⟨name, known, apart, rfl⟩ | link
    · exact isSelectToken_ofName position (names name known) apart (.inl (lastKeyword_select state spaceBefore))
    · exact isSelectToken_link _ position (marks lexeme link)
  · exact isSelectToken_keyword _ (.inr rfl) true
  · exact isSelectToken_ofName _ isColumnName_t true (.inr (lastKeyword_from _ true))

end Statement

section Writing

variable {spaceBefore : Bool} {first : String} {links : List (Lexeme × String)}

/-- Two lexemes are written with a space between them when they are read with one. -/
def Spaced (first next : Lexeme) : Prop :=
  next.spaceBefore = true → first.kind ≠ .dot ∧ first.value ≠ "(" ∧ next.kind ≠ .dot ∧
    next.value ≠ ")" ∧ next.value ≠ ","

/-- Lexemes of this kind are written with the spaces that they were read with. -/
structure Loose (lexeme : Lexeme) : Prop where
  unquoted : lexeme.quote = none
  noLiteral : lexeme.kind ≠ .literal
  noDot : lexeme.kind ≠ .dot
  noOpening : lexeme.value ≠ "("
  noClosing : lexeme.value ≠ ")"
  glued : lexeme.value = "," → lexeme.spaceBefore = false

theorem loose_of_identifier {kind : TokenKind} {text : String} (known : kind = .keyword ∨ kind = .name)
    (spelled : isIdentifier text.toList = true) (apart : Bool) : Loose ⟨kind, text, none, apart⟩ where
  unquoted := rfl
  noLiteral := by rcases known with rfl | rfl <;> exact nofun
  noDot := by rcases known with rfl | rfl <;> exact nofun
  noOpening := by rintro rfl; exact absurd spelled (by decide)
  noClosing := by rintro rfl; exact absurd spelled (by decide)
  glued := by rintro rfl; exact absurd spelled (by decide)

theorem loose_link {lexeme : Lexeme} (link : IsLink lexeme) : Loose lexeme := by
  rcases link with rfl | ⟨operator, rfl⟩
  · exact ⟨rfl, nofun, nofun, by decide, by decide, fun _ => rfl⟩
  · cases operator <;> exact ⟨rfl, nofun, nofun, by decide, by decide, fun same => absurd same (by decide)⟩

theorem loose_selectLexemes (names : ∀ name ∈ first :: links.map (·.2), IsColumnName name)
    (marks : ∀ link ∈ links.map (·.1), IsLink link) :
    ∀ lexeme ∈ selectLexemes spaceBefore first links, Loose lexeme := by
  intro lexeme member
  simp only [selectLexemes, List.mem_cons, List.mem_append, List.not_mem_nil, or_false] at member
  rcases member with rfl | inside | rfl | rfl
  · exact loose_of_identifier (.inl rfl) (by decide) spaceBefore
  · rcases mem_linked inside with ⟨name, known, apart, rfl⟩ | link
    · exact loose_of_identifier (.inr rfl) (names name known).spelled apart
    · exact loose_link (marks lexeme link)
  · exact loose_of_identifier (.inl rfl) (by decide) true
  · exact loose_of_identifier (.inr rfl) (by decide) true

/-- A token as it was read. -/
def lexemeOf (token : Token) : Lexeme := ⟨token.kind, token.value, token.quote, token.spaceBefore⟩

theorem Loose.spaced {lexeme next : Lexeme} (first : Loose lexeme) (second : Loose next) : Spaced lexeme next := by
  intro apart
  refine ⟨first.noDot, first.noOpening, second.noDot, second.noClosing, fun comma => ?_⟩
  exact Bool.false_ne_true ((second.glued comma).symm.trans apart)

/-- Lexemes with no more spaces than are written are written as they were read. -/
theorem writeAfter_spaced {before : Token} {tokens : List Token}
    (unquoted : ∀ token ∈ tokens, token.quote = none ∧ token.kind ≠ .literal)
    (spaced : ((before :: tokens).map lexemeOf).IsChain Spaced) :
    Token.writeAfter (some before) tokens = spell (tokens.map lexemeOf) := by
  induction tokens generalizing before with
  | nil => rfl
  | cons token rest ih =>
    obtain ⟨here, others⟩ := List.isChain_cons_cons.mp spaced
    have space : Token.needsSpace before token = token.spaceBefore := by
      cases apart : token.spaceBefore with
      | false => simp [Token.needsSpace, apart]
      | true =>
        obtain ⟨noDot, noOpening, noDotNext, noClosing, noComma⟩ := here apart
        have left : (before.kind == .dot) = false ∧ (before.value == "(") = false :=
          ⟨beq_false_of_ne noDot, beq_false_of_ne noOpening⟩
        have right : (token.kind == .dot) = false ∧ (token.value == ")") = false ∧ (token.value == ",") = false :=
          ⟨beq_false_of_ne noDotNext, beq_false_of_ne noClosing, beq_false_of_ne noComma⟩
        simp [Token.needsSpace, apart, left, right]
    have source : token.display.toList = (lexemeOf token).source := by
      rw [Token.display, (unquoted token List.mem_cons_self).1, lexemeOf,
        source_mk (unquoted token List.mem_cons_self).2]
    have later := ih (fun other member => unquoted other (List.mem_cons_of_mem _ member)) others
    rw [Token.writeAfter, later, Option.any_some, space, source]
    rfl

/-- The tokens of the statement are written as the statement, wherever it follows on from. -/
theorem writeAfter_selectTokens (state : Nesting) (names : ∀ name ∈ first :: links.map (·.2), IsColumnName name)
    (marks : ∀ link ∈ links.map (·.1), IsLink link) :
    Token.writeAfter none (selectTokens state spaceBefore first links) = written (selectLexemes true first links) := by
  have same :
      (selectTokens state spaceBefore first links).map lexemeOf = (selectLexemes spaceBefore first links).map id :=
    map_selectTokens state fun _ _ _ => rfl
  rw [List.map_id] at same
  have loose : ∀ token ∈ selectTokens state spaceBefore first links, Loose (lexemeOf token) := fun token member =>
    loose_selectLexemes names marks _ (same ▸ List.mem_map_of_mem member)
  have unquoted : ∀ token ∈ selectTokens state spaceBefore first links, token.quote = none ∧ token.kind ≠ .literal :=
    fun token member => ⟨(loose token member).unquoted, (loose token member).noLiteral⟩
  have spaced : ((selectTokens state spaceBefore first links).map lexemeOf).IsChain Spaced := by
    refine (List.pairwise_of_forall_mem_list fun before member next inside => ?_).isChain
    obtain ⟨token, known, rfl⟩ := List.mem_map.mp member
    obtain ⟨other, there, rfl⟩ := List.mem_map.mp inside
    exact (loose token known).spaced (loose other there)
  unfold selectTokens at same unquoted spaced ⊢
  rw [Token.writeAfter, writeAfter_spaced (fun token member => unquoted token (List.mem_cons_of_mem _ member)) spaced]
  rw [List.map_cons, selectLexemes] at same
  rw [(List.cons.inj same).2, Option.any_none, if_neg Bool.false_ne_true, List.nil_append]
  rfl

end Writing

end QueryFacts.Proofs.SelectList

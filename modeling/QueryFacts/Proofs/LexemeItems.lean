import QueryFacts.Proofs.CompoundKeywords
import QueryFacts.Proofs.ItemText
import QueryFacts.Token

/-! The items that lexemes are made of. Telling keywords from names and joining the words
of a keyword loses none of them: the items can be told from the texts of a lexeme. -/

namespace QueryFacts
open Lexer

namespace Lexer

/-- The items that a lexeme or token of these texts was made of. A keyword of several
words is made of them, and a star is one item whatever it stands for. -/
def itemsOf (kind : TokenKind) (value : List Char) (quote : Option Char) : List Item :=
  match kind, quote with
  | .keyword, none => (value.splitOn ' ').map word
  | .name, none => [word value]
  | .operator, none => if value = ['*'] then [.lexical .wildcard value none] else [.lexical .operator value none]
  | kind, quote => [.lexical kind value quote]

inductive Lexed : Item → Prop where
  | gap : Lexed .gap
  | word (text : List Char) : Lexed (Lexer.word text)
  | quoted (name : List Char) : Lexed (.lexical .name name (some Text.backtick))
  | star : Lexed (.lexical .wildcard ['*'] none)
  | other {kind : TokenKind} {value : List Char} (plain : kind ≠ .keyword ∧ kind ≠ .name ∧ kind ≠ .wildcard)
      (operator : value ≠ ['*']) : Lexed (.lexical kind value none)

end Lexer

def Lexeme.items (lexeme : Lexeme) : List Item := itemsOf lexeme.kind lexeme.value.toList lexeme.quote

def Token.items (token : Token) : List Item := itemsOf token.kind token.value.toList token.quote

/-- A lexeme of a single item, as the lexer gives it. -/
structure Lexeme.Single (lexeme : Lexeme) : Prop where
  items : lexeme.items = [.lexical lexeme.kind lexeme.value.toList lexeme.quote]
  keyword : lexeme.kind = .keyword → lexeme.quote = none ∧ ' ' ∉ lexeme.value.toList
  wildcard : lexeme.kind = .wildcard → lexeme.quote = none ∧ lexeme.value.toList = ['*']

end QueryFacts

namespace QueryFacts.Proofs.LexemeItems
open Text Lexer

private theorem reserved_solid : ∀ word ∈ Keyword.reserved, ' ' ∉ word.toList := by decide

theorem reserved_no_space {text : List Char} (reserved : Keyword.isReserved (upper (String.ofList text)) = true) :
    ' ' ∉ text := by
  intro space
  have member : upper (String.ofList text) ∈ Keyword.reserved := by simpa [Keyword.isReserved] using reserved
  apply reserved_solid _ member
  rw [upper, String.toList_ofList, String.toList_ofList]
  exact List.mem_flatMap.mpr ⟨' ', space, List.mem_cons_self⟩

theorem single_of_lexed {kind : TokenKind} {value : List Char} {quote : Option Char}
    (lexed : Lexed (.lexical kind value quote)) (spaceBefore : Bool) :
    Lexeme.Single ⟨kind, String.ofList value, quote, spaceBefore⟩ := by
  generalize found : Item.lexical kind value quote = item at lexed
  cases lexed with
  | gap => cases found
  | word text =>
    unfold word at found
    split at found
    next reserved =>
      cases found
      have solid := reserved_no_space reserved
      refine ⟨?_, fun _ => ⟨rfl, by simpa using solid⟩, fun other => (nomatch other)⟩
      simp only [Lexeme.items, itemsOf, String.toList_ofList, List.splitOn_eq_singleton solid,
        List.map_cons, List.map_nil, word, if_pos reserved]
    next free =>
      cases found
      refine ⟨?_, fun other => (nomatch other), fun other => (nomatch other)⟩
      simp only [Lexeme.items, itemsOf, String.toList_ofList, word, if_neg free]
  | quoted name =>
    cases found
    refine ⟨?_, fun other => (nomatch other), fun other => (nomatch other)⟩
    simp only [Lexeme.items, itemsOf, String.toList_ofList]
  | star =>
    cases found
    exact ⟨rfl, fun other => (nomatch other), fun _ => ⟨rfl, String.toList_ofList⟩⟩
  | other plain operator =>
    cases found
    obtain ⟨noKeyword, noName, noStar⟩ := plain
    refine ⟨?_, fun same => absurd same noKeyword, fun same => absurd same noStar⟩
    cases kind <;> simp_all [Lexeme.items, itemsOf]

private theorem quotedItem_lexed {fault : Fault} {whole : List Char} {body : Option Body} {item : List Char → Item}
    {found : Item} {after : List Char} (read : quotedItem fault whole body item = .ok (found, after))
    (each : ∀ inner, Lexed (item inner)) : Lexed found := by
  obtain ⟨inner, -, rfl⟩ := quotedItem_eq_ok.mp read
  exact each inner

private theorem lexed_literal {text : List Char} (different : text ≠ ['*']) : Lexed (literal text) :=
  .other (by decide) different

private theorem lexed_operator {text : List Char} (different : text ≠ ['*']) : Lexed (operator text) :=
  .other (by decide) different

theorem string?_lexed {c : Char} {rest : List Char} {item : Item} {after : List Char}
    (read : string? c rest = some (.ok (item, after))) : Lexed item := by
  unfold string? at read
  split at read
  next single =>
    apply quotedItem_lexed (Option.some.inj read)
    intro inner
    apply lexed_literal
    simp [enclose]
  next =>
  split at read
  next doubled =>
    apply quotedItem_lexed (Option.some.inj read)
    intro inner
    apply lexed_literal
    simp [enclose]
  next =>
  split at read
  next tick => exact quotedItem_lexed (Option.some.inj read) fun inner => tick ▸ .quoted inner
  next =>
  cases rest with
  | nil => cases read
  | cons quote rest =>
    simp only [List.head?_cons] at read
    split at read
    next =>
      apply quotedItem_lexed (Option.some.inj read)
      intro inner
      apply lexed_operator
      simp [enclose]
    next =>
    split at read
    next =>
      apply quotedItem_lexed (Option.some.inj read)
      intro inner
      apply lexed_literal
      simp [enclose]
    next =>
    split at read
    next =>
      apply quotedItem_lexed (Option.some.inj read)
      intro inner
      apply lexed_operator
      simp [enclose]
    next => cases read

private theorem numeric_lexed {c : Char} (rest : List Char) (starts : c.isDigit ∨ c = '.') :
    Lexed (numeric (c :: rest)).1 := by
  have plain : c ≠ '*' := by
    rintro rfl
    simp at starts
  obtain ⟨tail, start⟩ := mantissa_cons rest starts
  unfold numeric
  split
  next => exact lexed_literal (by simp [enclose])
  next =>
  simp only [number]
  split
  next point => exact .other (by decide) (by simp [point])
  next =>
  split
  next => exact .word _
  next =>
  apply Lexed.other
  · split <;> decide
  · rw [start]
    simp [plain]

private theorem atSign_lexed (rest : List Char) : Lexed (atSign rest).1 := by
  unfold atSign
  split
  next => exact lexed_operator (by decide)
  next => exact lexed_operator (by decide)
  next => exact lexed_operator (by decide)
  next => exact lexed_operator (by decide)
  next =>
    split
    next => exact lexed_operator (by decide)
    next => exact .word _
  next =>
    split
    next => exact lexed_operator (by decide)
    next => exact .word _

private theorem longOperators_ne_star : ∀ text ∈ longOperators, text ≠ ['*'] := by decide

private theorem symbol_lexed (c : Char) (rest : List Char) : Lexed (symbol c rest).1 := by
  unfold symbol
  split
  next text found =>
    apply lexed_operator
    split
    next => decide
    next => exact longOperators_ne_star text (List.mem_of_find?_eq_some found)
  next =>
    by_cases star : c = '*'
    · subst star
      exact .star
    · simp only [if_neg star]
      refine .other ?_ (by simpa using star)
      split <;> decide

theorem scan_lexed {c : Char} {rest : List Char} {item : Item} {after : List Char}
    (read : scan c rest = .ok (item, after)) : Lexed item := by
  unfold scan at read
  split at read
  next => cases read; exact .gap
  next =>
  split at read
  next found string =>
    rw [read] at string
    exact string?_lexed string
  next =>
  split at read
  next starts =>
    have number := numeric_lexed rest starts
    rwa [Except.ok.inj read] at number
  next =>
  split at read
  next =>
    split at read
    next => cases read
    next => cases read; exact .gap
  next =>
  split at read
  next => cases read; exact .gap
  next =>
  split at read
  next =>
    have sign := atSign_lexed rest
    rwa [Except.ok.inj read] at sign
  next =>
  split at read
  next placeholder =>
    cases read
    subst placeholder
    exact lexed_literal (by simp)
  next =>
  split at read
  next => cases read; exact .word _
  next =>
    have sign := symbol_lexed c rest
    rwa [Except.ok.inj read] at sign

theorem items_lexed {text : List Char} {found : List Item} (read : items text = .ok found) :
    ∀ item ∈ found, Lexed item := by
  induction size : text.length using Nat.strongRecOn generalizing text found with
  | ind size ih =>
    intro item member
    cases text with
    | nil =>
      rw [items] at read
      obtain rfl := Except.ok.inj read
      cases member
    | cons c rest =>
      obtain ⟨first, after, others, scanned, remaining, rfl⟩ := items_cons.mp read
      have shorter := scan_length scanned
      rcases List.mem_cons.mp member with rfl | later
      · exact scan_lexed scanned
      · exact ih after.length
          (by rw [← size, List.length_cons]; exact Nat.lt_succ_of_le shorter) remaining rfl item later

/-- The lexemes of a text are its items without the gaps, each a single one. -/
theorem ofItemsFrom_items {found : List Item} (lexed : ∀ item ∈ found, Lexed item) (glued : Bool) :
    (∀ lexeme ∈ Lexeme.ofItemsFrom glued found, lexeme.Single) ∧
      (Lexeme.ofItemsFrom glued found).flatMap Lexeme.items = solid found := by
  induction found generalizing glued with
  | nil => exact ⟨fun lexeme member => (nomatch member), rfl⟩
  | cons item found ih =>
    have others := fun glued => ih (fun item member => lexed item (List.mem_cons_of_mem _ member)) glued
    cases item with
    | gap => exact others false
    | lexical kind value quote =>
      have single := single_of_lexed (lexed _ List.mem_cons_self) (!glued)
      obtain ⟨singles, texts⟩ := others true
      rw [Lexeme.ofItemsFrom]
      refine ⟨?_, ?_⟩
      · intro lexeme member
        rcases List.mem_cons.mp member with rfl | later
        · exact single
        · exact singles lexeme later
      · rw [List.flatMap_cons, texts, single.items]
        simp [solid]

/-- A keyword, if it is one, of a single word. -/
def OneWord (lexeme : Lexeme) : Prop :=
  lexeme.kind = .keyword → lexeme.quote = none ∧ ' ' ∉ lexeme.value.toList

theorem reclassify_items {lexeme : Lexeme} (single : lexeme.Single) (before after : Option Lexeme) :
    (Lexeme.reclassify before lexeme after).items = lexeme.items ∧ OneWord (Lexeme.reclassify before lexeme after) := by
  unfold Lexeme.reclassify
  split
  next keyword =>
    obtain ⟨bare, solid⟩ := single.keyword keyword
    simp only
    split
    next =>
      refine ⟨?_, fun other => (nomatch other)⟩
      simp only [Lexeme.items, itemsOf, keyword, bare, List.splitOn_eq_singleton solid, List.map_cons, List.map_nil]
    next => exact ⟨rfl, fun _ => ⟨bare, solid⟩⟩
  next star =>
    obtain ⟨bare, text⟩ := single.wildcard star
    simp only
    split
    next => exact ⟨rfl, fun other => absurd (star.symm.trans other) (by decide)⟩
    next =>
      refine ⟨?_, fun other => (nomatch other)⟩
      simp only [Lexeme.items, itemsOf, star, bare, text, if_true]
  next => exact ⟨rfl, single.keyword⟩

theorem reclassifyFrom_items {lexemes : List Lexeme} (singles : ∀ lexeme ∈ lexemes, lexeme.Single)
    (before : Option Lexeme) :
    (∀ lexeme ∈ Lexeme.reclassifyFrom before lexemes, OneWord lexeme) ∧
      (Lexeme.reclassifyFrom before lexemes).flatMap Lexeme.items = lexemes.flatMap Lexeme.items := by
  induction lexemes generalizing before with
  | nil => exact ⟨fun lexeme member => (nomatch member), rfl⟩
  | cons lexeme rest ih =>
    obtain ⟨same, word⟩ := reclassify_items (singles lexeme List.mem_cons_self) before rest.head?
    obtain ⟨words, others⟩ := ih (fun other member => singles other (List.mem_cons_of_mem _ member))
      (some (Lexeme.reclassify before lexeme rest.head?))
    rw [Lexeme.reclassifyFrom]
    refine ⟨?_, ?_⟩
    · intro other member
      rcases List.mem_cons.mp member with rfl | later
      · exact word
      · exact words other later
    · rw [List.flatMap_cons, List.flatMap_cons, same, others]

private theorem flatMap_single {α β : Type} {part : α → List β} {single : α → β} {all : List α}
    (each : ∀ a ∈ all, part a = [single a]) : all.flatMap part = all.map single := by
  induction all with
  | nil => rfl
  | cons a rest ih =>
    rw [List.flatMap_cons, List.map_cons, each a List.mem_cons_self, ih fun b member =>
      each b (List.mem_cons_of_mem _ member)]
    rfl

private theorem keyword_items {lexeme : Lexeme} (oneWord : OneWord lexeme) (keyword : lexeme.isKeyword = true) :
    lexeme.items = [word lexeme.value.toList] ∧ ' ' ∉ lexeme.value.toList := by
  have kind : lexeme.kind = .keyword := by simpa [Lexeme.isKeyword] using keyword
  obtain ⟨bare, solid⟩ := oneWord kind
  refine ⟨?_, solid⟩
  simp only [Lexeme.items, itemsOf, kind, bare, List.splitOn_eq_singleton solid, List.map_cons, List.map_nil]

/-- A keyword is made of the words that it is joined from. -/
theorem items_of_readAs {group : List Lexeme} {lexeme : Lexeme} (reads : Lexeme.ReadAs group lexeme)
    (oneWord : ∀ word ∈ group, OneWord word) : lexeme.items = group.flatMap Lexeme.items := by
  cases reads with
  | single => simp
  | @compound first rest compound =>
    have keywords := compound.keywords
    generalize all : first :: rest = words at oneWord keywords
    have nonempty : words ≠ [] := all ▸ List.cons_ne_nil first rest
    have values : words.flatMap Lexeme.items = words.map (fun lexeme => word lexeme.value.toList) :=
      flatMap_single fun lexeme member => (keyword_items (oneWord lexeme member) (keywords lexeme member)).1
    have solid : ∀ value ∈ words.map (·.value.toList), ' ' ∉ value := by
      intro value member
      obtain ⟨lexeme, inside, rfl⟩ := List.mem_map.mp member
      exact (keyword_items (oneWord lexeme inside) (keywords lexeme inside)).2
    have parts := List.splitOn_intercalate ' ' solid (by simpa using nonempty)
    rw [values]
    simp only [Lexeme.items, itemsOf, String.toList_intercalate, List.map_map]
    change ((List.intercalate [' '] (words.map (·.value.toList))).splitOn ' ').map word = _
    rw [parts, List.map_map]
    rfl

theorem mergeCompounds_items {lexemes : List Lexeme} (oneWord : ∀ lexeme ∈ lexemes, OneWord lexeme) :
    (Lexeme.mergeCompounds lexemes).flatMap Lexeme.items = lexemes.flatMap Lexeme.items := by
  have groups := CompoundKeywords.grouping lexemes
  have whole := CompoundKeywords.flatten_groups groups
  have each (group : List Lexeme) (member : group ∈ Lexeme.compounds lexemes) :
      (Lexeme.ofCompound group).items = group.flatMap Lexeme.items := by
    apply items_of_readAs (CompoundKeywords.readAs_of_mem groups group member)
    intro lexeme inside
    apply oneWord
    rw [← whole]
    exact List.mem_flatten_of_mem member inside
  calc
    (Lexeme.mergeCompounds lexemes).flatMap Lexeme.items = (Lexeme.compounds lexemes).flatMap fun group =>
        group.flatMap Lexeme.items := by
      rw [Lexeme.mergeCompounds, List.flatMap_map]
      exact List.flatMap_congr each
    _ = ((Lexeme.compounds lexemes).flatMap id).flatMap Lexeme.items := List.flatMap_assoc.symm
    _ = lexemes.flatMap Lexeme.items := by rw [List.flatMap_id, whole]

/-- Telling and joining keywords keeps the items of single lexemes. -/
theorem merged_items {lexemes : List Lexeme} (singles : ∀ lexeme ∈ lexemes, lexeme.Single) :
    (Lexeme.mergeCompounds (Lexeme.reclassifyAll lexemes)).flatMap Lexeme.items = lexemes.flatMap Lexeme.items := by
  obtain ⟨words, same⟩ := reclassifyFrom_items singles none
  exact (mergeCompounds_items words).trans same

end QueryFacts.Proofs.LexemeItems

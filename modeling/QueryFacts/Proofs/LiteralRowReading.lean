import QueryFacts.Proofs.BareFacts
import QueryFacts.Proofs.SpelledLiterals
import QueryFacts.Proofs.StandaloneBody

/-! Rows of literals that are inserted, in any spelling and with any gaps: what is given is the items that
the lexer reads the text as. The values are those of the literals one by one, since within a row only
the last lexeme of a literal stands in front of a comma or a closing parenthesis. -/

namespace QueryFacts
open Text Lexer

namespace Lexer

def mark (text : String) : Item := .lexical .punctuation text.toList none

def keyword (letters : List Char) : Item := .lexical .keyword letters none

/-- The items of a list, with commas between them. -/
def joined {α : Type} (items : α → List Item) (first : α) (more : List α) : List Item :=
  items first ++ more.flatMap fun next => mark "," :: items next

def group (inner : List Item) : List Item := mark "(" :: (inner ++ [mark ")"])

end Lexer

/-- A name with the quote that was around it. -/
structure GivenName where
  letters : List Char
  quote : Option Char := none

def GivenName.item (name : GivenName) : Item := .lexical .name name.letters name.quote

structure LiteralRow where
  first : SpelledLiteral
  more : List SpelledLiteral := []

namespace LiteralRow

def literals (row : LiteralRow) : List SpelledLiteral := row.first :: row.more

def items (row : LiteralRow) : List Item := group (joined SpelledLiteral.items row.first row.more)

end LiteralRow

/-- INSERT or REPLACE INTO a table, perhaps with a list of columns, and rows of literals. -/
structure LiteralRows where
  verb : List Char
  into : List Char
  qualifiers : List GivenName := []
  table : GivenName
  columns : List GivenName := []
  values : List Char
  first : LiteralRow
  more : List LiteralRow := []

namespace LiteralRows

/-- All keywords of such statements. -/
def words : List String := ["INSERT", "REPLACE", "INTO", "VALUES"] ++ SpelledLiteral.words

def literals (rows : LiteralRows) : List SpelledLiteral := (rows.first :: rows.more).flatMap LiteralRow.literals

def target (rows : LiteralRows) : List Item :=
  rows.qualifiers.flatMap (fun name => [name.item, .lexical .dot ['.'] none]) ++ [rows.table.item]

def listed (rows : LiteralRows) : List Item :=
  match rows.columns with
  | [] => []
  | first :: more => group (joined (fun name => [name.item]) first more)

def body (rows : LiteralRows) : List Item := joined LiteralRow.items rows.first rows.more

def items (rows : LiteralRows) : List Item :=
  keyword rows.verb :: keyword rows.into :: (rows.target ++ (rows.listed ++ keyword rows.values :: rows.body))

structure Known (rows : LiteralRows) : Prop where
  verb : IsSpelling "INSERT" rows.verb ∨ IsSpelling "REPLACE" rows.verb
  into : IsSpelling "INTO" rows.into
  values : IsSpelling "VALUES" rows.values
  literals : ∀ literal ∈ rows.literals, literal.Known

end LiteralRows

end QueryFacts

namespace QueryFacts.Proofs.LiteralRowReading
open Text Lexer Lexeme NestingRun Clauses Spots ValueSpots LiteralValues Spelling SpelledLiterals

section Items

theorem item_ofItems (found : List Item) : (ofItems found).map Lexeme.item = solid found := by
  have general (glued : Bool) : (ofItemsFrom glued found).map Lexeme.item = solid found := by
    induction found generalizing glued with
    | nil => rfl
    | cons item found ih =>
      cases item with
      | gap => exact ih false
      | lexical kind value quote =>
        rw [ofItemsFrom, List.map_cons, ih true, Lexeme.item, String.toList_ofList]
        rfl
  exact general false

theorem isPunctuation_of_item {lexeme : Lexeme} {text : String} (same : lexeme.item = mark text) :
    lexeme.isPunctuation text = true := by
  obtain ⟨apart, rfl⟩ := exists_of_item same
  rw [String.ofList_toList]
  simp [isPunctuation]

theorem isMark_of_isPunctuation {lexeme : Lexeme} {text : String} (written : lexeme.isPunctuation text = true) :
    lexeme.isMark = true := by
  rw [isPunctuation, Bool.and_eq_true] at written
  rw [isMark, written.1, Bool.true_or]

theorem wordless_of_comma {lexeme : Lexeme} (comma : lexeme.isPunctuation "," = true) : lexeme.Wordless := by
  rw [isPunctuation, Bool.and_eq_true, beq_iff_eq, beq_iff_eq] at comma
  exact ⟨by simp [side?, isPunctuation, comma.2], by simp [isKeyword, comma.1]⟩

variable {part : List Lexeme} {α : Type} {items : α → List Item} {first next : α} {more : List α}

theorem exists_group {inner : List Item} (read : part.map Lexeme.item = group inner) : ∃ opening body closing,
    part = opening :: (body ++ [closing]) ∧ opening.isPunctuation "(" = true ∧ body.map Lexeme.item = inner ∧
      closing.isPunctuation ")" = true := by
  obtain ⟨opening, rest, rfl, opens, read⟩ := List.map_eq_cons_iff.mp read
  obtain ⟨body, last, rfl, within, read⟩ := List.map_eq_append_iff.mp read
  obtain ⟨closing, rfl, closes⟩ := List.map_eq_singleton_iff.mp read
  exact ⟨opening, body, closing, rfl, isPunctuation_of_item opens, within, isPunctuation_of_item closes⟩

theorem exists_joined (read : part.map Lexeme.item = joined items first (next :: more)) : ∃ front comma rest,
    part = front ++ comma :: rest ∧ front.map Lexeme.item = items first ∧ comma.isPunctuation "," = true ∧
      rest.map Lexeme.item = joined items next more := by
  obtain ⟨front, others, rfl, before, read⟩ := List.map_eq_append_iff.mp read
  obtain ⟨comma, rest, rfl, parts, read⟩ := List.map_eq_cons_iff.mp read
  exact ⟨front, comma, rest, rfl, before, isPunctuation_of_item parts, read⟩

theorem joined_single (items : α → List Item) (only : α) : joined items only [] = items only := List.append_nil _

theorem mem_joined {item : Item} (member : item ∈ joined items first more) :
    item = mark "," ∨ ∃ one ∈ first :: more, item ∈ items one := by
  rcases List.mem_append.mp member with here | later
  · exact .inr ⟨first, List.mem_cons_self, here⟩
  · obtain ⟨one, listed, inside⟩ := List.mem_flatMap.mp later
    rcases List.mem_cons.mp inside with comma | inside
    · exact .inl comma
    · exact .inr ⟨one, List.mem_cons_of_mem _ listed, inside⟩

end Items

section Keywords

variable {lexeme : Lexeme} {words : List String}

theorem letters_words : ∀ word ∈ LiteralRows.words, word.toList.all (·.isUpper) = true := by decide

/-- A keyword in any case is the word in every way in which it is looked at. -/
theorem word_of_within (letters : ∀ word ∈ words, word.toList.all (·.isUpper) = true) (within : lexeme.KeywordsIn words)
    (keyword : lexeme.isKeyword = true) : ∃ word ∈ words, lexeme.normalized = word ∧ Text.upper lexeme.value = word ∧
      lexeme.value.toList.map Char.toUpper = word.toList := by
  obtain ⟨word, listed, bare, spelled⟩ := within keyword
  have kind : lexeme.kind = .keyword := by simpa [isKeyword] using keyword
  have upper := upper_of_spelling (letters word listed) spelled
  rw [String.ofList_toList] at upper
  refine ⟨word, listed, ?_, upper, spelled⟩
  rw [normalized, kind, bare]
  exact normalForm_of_spelling (letters word listed) spelled

theorem word_of_item {word : String} {letters : List Char} (upper : word.toList.all (·.isUpper) = true)
    (spelled : IsSpelling word letters) (same : lexeme.item = keyword letters) :
    lexeme.isKeyword = true ∧ lexeme.normalized = word ∧
      lexeme.value.toList.map Char.toUpper = word.toList := by
  obtain ⟨apart, rfl⟩ := exists_of_item same
  refine ⟨rfl, normalForm_of_spelling upper ?_, ?_⟩ <;> rwa [String.toList_ofList]

end Keywords

section Rows

variable {context : Context} {before after part : List Lexeme}

theorem staying_literal {literal : SpelledLiteral} (known : literal.Known) {lexeme : Lexeme}
    (item : lexeme.item ∈ literal.items) :
    lexeme.Staying := by
  have insignificant : ∀ word ∈ SpelledLiteral.words, Keyword.isInsignificant word = true := by decide
  obtain ⟨kind, within⟩ := kind_of_literal known item
  refine ⟨side?_of_kind fun mark => ?_, fun keyword => ?_⟩
  · rw [mark] at kind
    exact absurd kind (by decide)
  · obtain ⟨word, listed, same, -⟩ := word_of_within (by decide) within keyword
    exact same ▸ insignificant word listed

/-- Nothing within a row begins a clause or a parenthesis. -/
theorem staying_joined {first : SpelledLiteral} {more : List SpelledLiteral}
    (known : ∀ literal ∈ first :: more, literal.Known)
    (read : part.map Lexeme.item = joined SpelledLiteral.items first more) : ∀ lexeme ∈ part, lexeme.Staying := by
  intro lexeme member
  have item : lexeme.item ∈ joined SpelledLiteral.items first more := read ▸ List.mem_map_of_mem member
  rcases mem_joined item with comma | ⟨literal, listed, inside⟩
  · exact staying_of_wordless (wordless_of_comma (isPunctuation_of_item comma))
  · exact staying_literal (known literal listed) inside

/-- The literals of a row are read as their values, one after the other. -/
theorem values_joined (row : context.InRow) (begins : BeginsItem before) (ends : EndsItem after)
    {first : SpelledLiteral}
    {more : List SpelledLiteral} (known : ∀ literal ∈ first :: more, literal.Known)
    (read : part.map Lexeme.item = joined SpelledLiteral.items first more) :
    (spots context before part after).filterMap Spot.value? = (first :: more).map SpelledLiteral.value := by
  induction more generalizing context before part first with
  | nil =>
    rw [joined_single] at read
    exact values_spelled (known first List.mem_cons_self) read row begins ends
  | cons next more ih =>
    obtain ⟨front, comma, rest, rfl, here, isComma, later⟩ := exists_joined read
    obtain ⟨knownHere, knownLater⟩ := List.forall_mem_cons.mp known
    have staying : ∀ lexeme ∈ front, lexeme.Staying := fun lexeme member =>
      staying_literal knownHere (here ▸ List.mem_map_of_mem member)
    have resumes : context.Resumes ((context.after front).step comma) :=
      (resumes_after staying).trans (resumes_step (staying_of_wordless (wordless_of_comma isComma)))
    have border : BeginsItem (comma :: (front.reverse ++ before)) ∧ EndsItem (comma :: (rest ++ after)) := by
      simp [BeginsItem, EndsItem, isComma]
    exact values_mark (isMark_of_isPunctuation isComma) (values_spelled knownHere here row begins border.2)
      (ih (resumes_row row resumes) border.1 knownLater later)

/-- After VALUES a row is read as the values of its literals, and the next one may follow. -/
theorem values_row (clause : context.clause = some "VALUES") {row : LiteralRow}
    (known : ∀ literal ∈ row.literals, literal.Known)
    (read : part.map Lexeme.item = row.items) : (spots context before part after).filterMap Spot.value? =
      row.literals.map SpelledLiteral.value ∧ context.Resumes (context.after part) := by
  obtain ⟨opening, body, closing, rfl, opens, inside, closes⟩ := exists_group read
  have openSide := side?_eq_opening.mpr opens
  have closeSide := side?_eq_closing.mpr closes
  have inRow : (context.step opening).InRow := by
    simp only [Context.step, openSide]
    exact ⟨clause, List.cons_ne_nil _ _⟩
  have staying := staying_joined known inside
  have level (context : Context) : (context.after body).opened = context.opened :=
    opened_after fun lexeme member => (staying lexeme member).1
  refine ⟨?_, resumes_between openSide closeSide level⟩
  have border : BeginsItem (opening :: before) ∧ EndsItem ([closing] ++ after) := by
    simp [BeginsItem, EndsItem, opens, closes]
  rw [filterMap_cons, value?_of_mark (isMark_of_isPunctuation opens), spots_append, List.filterMap_append,
    values_joined inRow border.1 border.2 known inside, filterMap_cons, value?_of_mark (isMark_of_isPunctuation closes)]
  exact List.append_nil _

/-- Rows are read as the values of all their literals. -/
theorem values_rows (clause : context.clause = some "VALUES") {first : LiteralRow} {more : List LiteralRow}
    (known : ∀ row ∈ first :: more, ∀ literal ∈ row.literals, literal.Known)
    (read : part.map Lexeme.item = joined LiteralRow.items first more) :
    (spots context before part after).filterMap Spot.value? =
      ((first :: more).flatMap LiteralRow.literals).map SpelledLiteral.value := by
  induction more generalizing context before part first with
  | nil =>
    rw [joined_single] at read
    rw [List.flatMap_singleton]
    exact (values_row clause (known first List.mem_cons_self) read).1
  | cons next more ih =>
    obtain ⟨front, comma, rest, rfl, here, isComma, later⟩ := exists_joined read
    obtain ⟨knownHere, knownLater⟩ := List.forall_mem_cons.mp known
    obtain ⟨values, resumes⟩ := @values_row context before (comma :: (rest ++ after)) front clause first knownHere here
    have between : context.Resumes ((context.after front).step comma) :=
      resumes.trans (resumes_step (staying_of_wordless (wordless_of_comma isComma)))
    rw [List.flatMap_cons, List.map_append]
    exact values_mark (isMark_of_isPunctuation isComma) values (ih (between.clause.trans clause) knownLater later)

end Rows

end QueryFacts.Proofs.LiteralRowReading

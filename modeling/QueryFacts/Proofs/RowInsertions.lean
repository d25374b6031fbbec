import QueryFacts.Proofs.InsertTargets
import QueryFacts.Proofs.RowAlignment

/-! A row that is inserted for listed columns. The columns are mentions of names after INTO, and the
values are what ends an item in a parenthesis while VALUES is the last keyword that counts. -/

namespace QueryFacts

namespace RowItem

def phrase : RowItem → Phrase → Phrase
  | literal value, rest => .word (.literal value) rest
  | default, rest => .word (.keyword "DEFAULT") rest
  | call name arguments, rest => .word (.name name) (.group false (.listed (arguments.map .literal)) rest)

def Known : RowItem → Prop
  | literal value => value.Known
  | default => True
  | call name arguments => (IsBareName name ∨ IsCalledName name) ∧ ∀ value ∈ arguments, value.Known

instance : (item : RowItem) → Decidable item.Known
  | literal value => inferInstanceAs (Decidable value.Known)
  | default => isTrue trivial
  | call name arguments =>
    inferInstanceAs (Decidable ((IsBareName name ∨ IsCalledName name) ∧ ∀ value ∈ arguments, value.Known))

end RowItem

/-- A row with the columns that it is for. -/
structure RowInsertion where
  replaces : Bool := false
  table : String
  first : Cell
  more : List Cell := []

namespace RowInsertion

def cells (insertion : RowInsertion) : List Cell := insertion.first :: insertion.more

def word (insertion : RowInsertion) : String := if insertion.replaces then "REPLACE" else "INSERT"

def row (insertion : RowInsertion) : Phrase := .separated RowItem.phrase .done (insertion.cells.map (·.item))

def phrase (insertion : RowInsertion) : Phrase :=
  .ofWords [.keyword insertion.word, .keyword "INTO", .name insertion.table]
    (.group true (.listed ((insertion.cells.map (·.column)).map .name))
      (.word (.keyword "VALUES") (.group true insertion.row .done)))

structure Known (insertion : RowInsertion) : Prop where
  table : IsBareName insertion.table
  columns : ∀ cell ∈ insertion.cells, IsBareName cell.column
  items : ∀ cell ∈ insertion.cells, cell.item.Known

end RowInsertion

end QueryFacts

namespace QueryFacts.Proofs.RowInsertions
open Text Lexeme NestingRun PlainText SelectList ColumnListStatement Clauses Spots TableSpots MentionSpots
open ValueSpots Phrases PhraseTables
open Unnested MeantColumns BareFacts Upserts LiteralValues FromClauses InsertTargets

example :
    (RowInsertion.phrase
      { table := "t", first := ⟨"a", .call "IF" []⟩, more := [⟨"b", .call "f" [.number true "1", .null]⟩] }).text =
    "INSERT INTO t (a, b) VALUES (IF(), f(-1, NULL))" := by decide

section Clauses

variable {context : Context} {before after : List Lexeme} {clauses : String → Bool}

private theorem clause_after_word {word : Word} (known : ∀ text, word = .keyword text → text ∈ Word.keywords)
    (none : ∀ text, word = .keyword text → clauses text = false)
    (here : clauses (context.clause.getD "") = false) (apart : Bool) :
    clauses ((context.after (word.lexemes apart)).clause.getD "") = false := by
  cases word with
  | name name =>
    have resumes : context.Resumes (context.after [ofName name apart]) :=
      resumes_step (⟨rfl, nofun⟩ : (ofName name apart).Staying)
    exact resumes.clause ▸ here
  | literal value =>
    have resumes : context.Resumes (context.after (value.lexemes apart)) := resumes_after (staying_literal value apart)
    exact resumes.clause ▸ here
  | keyword text =>
    have normalized : (ofKeyword text apart).normalized = text := (keyword_facts text (known text rfl)).2.2.1
    cases insignificant : Keyword.isInsignificant text with
    | true =>
      have resumes : context.Resumes (context.after [ofKeyword text apart]) :=
        resumes_step (⟨rfl, fun _ => normalized.symm ▸ insignificant⟩ : (ofKeyword text apart).Staying)
      exact resumes.clause ▸ here
    | false =>
      have begins := (step_significant context (ofKeyword text apart) rfl (normalized.symm ▸ insignificant)).1
      change clauses ((context.step (ofKeyword text apart)).clause.getD "") = false
      rw [begins, normalized]
      exact none text rfl

private theorem clause_word (word : Word) (here : clauses (context.clause.getD "") = false) (apart : Bool) :
    ∀ spot ∈ spots context before (word.lexemes apart) after, clauses spot.clause = false := by
  intro spot member
  cases word with
  | keyword | name =>
    obtain rfl := List.mem_singleton.mp member
    exact here
  | literal value =>
    have staying : ∀ lexeme ∈ (Word.literal value).lexemes apart, lexeme.Staying := staying_literal value apart
    rw [clause_of_staying staying spot member]
    exact here

/-- In a phrase no clauses come up but those of its keywords. -/
theorem clauses_phrase {phrase : Phrase} (known : phrase.KnownCalls)
    (none : ∀ text ∈ phrase.keywords, clauses text = false)
    (here : clauses (context.clause.getD "") = false) (glued : Bool) :
    (∀ spot ∈ spots context before (phrase.lexemes glued) after, clauses spot.clause = false) ∧
      clauses ((context.after (phrase.lexemes glued)).clause.getD "") = false := by
  induction phrase generalizing context before after glued with
  | done => exact ⟨List.forall_mem_nil _, here⟩
  | word word rest ih =>
    have own : ∀ text, word = .keyword text → clauses text = false := by
      rintro text rfl
      exact none text List.mem_cons_self
    have knownWord : ∀ text, word = .keyword text → text ∈ Word.keywords := by
      rintro text rfl
      exact known.1.resolve_right nofun
    have later : ∀ text ∈ rest.keywords, clauses text = false := by
      cases word with
      | keyword text => exact fun other member => none other (List.mem_cons_of_mem _ member)
      | name | literal => exact none
    obtain ⟨inside, ends⟩ :=
      @ih (context.after (word.lexemes (!glued))) ((word.lexemes (!glued)).reverse ++ before) after
      known.2.2 later (clause_after_word knownWord own here (!glued)) false
    rw [Phrase.lexemes, spots_append, List.forall_mem_append, Context.after_append]
    exact ⟨⟨clause_word word here _, inside⟩, ends⟩
  | operator symbol rest ih =>
    let sign : Lexeme := ⟨.operator, symbol, .none, true⟩
    have resumes : context.Resumes (context.step sign) := resumes_step (staying_of_wordless ⟨rfl, rfl⟩)
    obtain ⟨inside, ends⟩ :=
      @ih (context.step sign) (sign :: before) after known.2.2 none (by rw [resumes.clause]; exact here) false
    exact ⟨List.forall_mem_cons.mpr ⟨here, inside⟩, ends⟩
  | comma rest ih =>
    obtain ⟨inside, ends⟩ :=
      @ih (context.step comma) (comma :: before) after known none
        (by rw [(resumes_comma context).clause]; exact here) false
    exact ⟨List.forall_mem_cons.mpr ⟨here, inside⟩, ends⟩
  | group apart inner rest ihInner ihRest =>
    let opening : Lexeme := ⟨.punctuation, "(", .none, apart⟩
    obtain ⟨within, beyond⟩ := List.forall_mem_append.mp none
    have resumes := resumes_phrase context inner apart
    obtain ⟨inside, last⟩ :=
      @ihInner (context.step opening) (opening :: before) (closing :: (rest.lexemes false ++ after)) known.1 within
      here true
    obtain ⟨later, ends⟩ :=
      @ihRest _ (closing :: ((inner.lexemes true).reverse ++ opening :: before)) after known.2 beyond
      (by rw [resumes.clause]; exact here) false
    have passed : context.after (Phrase.lexemes glued (.group apart inner rest)) =
        (((context.step opening).after (inner.lexemes true)).step closing).after (rest.lexemes false) := by
      rw [Phrase.lexemes, Context.after, List.foldl_cons, List.foldl_append]
      rfl
    rw [passed, Phrase.lexemes, spots, List.forall_mem_cons, spots_append, List.forall_mem_append,
      spots, List.forall_mem_cons]
    exact ⟨⟨here, inside, last, later⟩, ends⟩

end Clauses

section Values

variable {context : Context} {before after : List Lexeme}

theorem lexemes_item (item : RowItem) (glued : Bool) (rest : Phrase) :
    (item.phrase rest).lexemes glued = (item.phrase .done).lexemes glued ++ rest.lexemes false := by
  cases item with
  | literal value => exact congrArg (· ++ rest.lexemes false) (List.append_nil _).symm
  | default => rfl
  | call name arguments => simp [RowItem.phrase, Phrase.lexemes]

/-- An item is read as its values. -/
theorem values_item (row : context.InRow) (begins : BeginsItem before) (ends : EndsItem after)
    {item : RowItem} (known : item.Known)
    (glued : Bool) :
    (spots context before ((item.phrase .done).lexemes glued) after).filterMap Spot.value? = item.values := by
  cases item with
  | literal value =>
    have whole : ((RowItem.literal value).phrase .done).lexemes glued = value.lexemes (!glued) := List.append_nil _
    rw [whole]
    exact values_literal row begins ends known _
  | default =>
    change (spots context before [ofKeyword "DEFAULT" (!glued)] after).filterMap Spot.value? = _
    rw [filterMap_cons, List.nil_append, value?_item row rfl (show "DEFAULT" ≠ "-" by decide) ends,
      isNegated_first begins, readValue_keyword (by decide)]
    rfl
  | call name arguments =>
    let opening : Lexeme := ⟨.punctuation, "(", none, false⟩
    let inner := (Phrase.listed (arguments.map .literal)).lexemes true
    have named : context.Resumes (context.step (ofName name (!glued))) := resumes_step ⟨rfl, nofun⟩
    have nothing :
        Spot.value? ⟨context, before, ofName name (!glued), opening :: (inner ++ [closing]) ++ after⟩ = none :=
      value?_inside fun ends => by cases ends
    have listed := @values_literals _ (opening :: ofName name (!glued) :: before) ([closing] ++ after)
      (opening_row (resumes_row row named) false) rfl rfl arguments known.2 true
    change (spots context before (ofName name (!glued) :: opening :: (inner ++ [closing])) after).filterMap
        Spot.value? = _
    rw [filterMap_cons, nothing, filterMap_cons, value?_of_mark rfl, spots_append, List.filterMap_append,
      listed, filterMap_cons, value?_of_mark rfl]
    exact List.append_nil _

/-- Only DEFAULT ends the clause of the row. -/
theorem resumes_item {item : RowItem} (lasting : item.isDefault = false) (glued : Bool) :
    context.Resumes (context.after ((item.phrase .done).lexemes glued)) := by
  cases item with
  | default => cases lasting
  | literal value =>
    have whole : ((RowItem.literal value).phrase .done).lexemes glued = value.lexemes (!glued) := List.append_nil _
    rw [whole]
    exact resumes_after (staying_literal value _)
  | call name arguments =>
    let inner := Phrase.listed (arguments.map .literal)
    have named : context.Resumes (context.step (ofName name (!glued))) := resumes_step ⟨rfl, nofun⟩
    have closed := resumes_phrase (context.step (ofName name (!glued))) inner false
    have whole : context.after (((RowItem.call name arguments).phrase .done).lexemes glued) =
        (((context.step (ofName name (!glued))).step ⟨.punctuation, "(", none, false⟩).after
            (inner.lexemes true)).step closing := by
      change context.after
          (ofName name (!glued) :: ⟨.punctuation, "(", none, false⟩ :: (inner.lexemes true ++ [closing])) = _
      rw [Context.after, List.foldl_cons, List.foldl_cons, List.foldl_append]
      rfl
    rw [whole]
    exact named.trans closed

theorem known_items {items : List RowItem} (known : ∀ item ∈ items, item.Known) :
    (Phrase.separated RowItem.phrase .done items).KnownCalls := by
  have word : "DEFAULT" ∈ Word.keywords ∧ Keyword.isFunctionLike "DEFAULT" = false := by decide
  refine separated_induction (motive := Phrase.KnownCalls) trivial
    (fun _ later => later) fun item member rest later => ?_
  have here := known item member
  cases item with
  | literal value => exact ⟨.inl here, nofun, later⟩
  | default => exact ⟨.inl word.1, fun call => absurd (word.2.symm.trans call) Bool.false_ne_true, later⟩
  | call name arguments =>
    have listed : (Phrase.listed (arguments.map .literal)).Known := known_listed fun other inside => by
      obtain ⟨value, among, rfl⟩ := List.mem_map.mp inside
      exact ⟨here.2 value among, rfl⟩
    exact ⟨here.1.imp_right fun called => ⟨name, rfl, called, rfl⟩, nofun, listed.calls, later⟩

theorem keywords_items (items : List RowItem) :
    ∀ text ∈ (Phrase.separated RowItem.phrase .done items).keywords, text = "DEFAULT" := by
  refine separated_induction
    (motive := fun phrase => ∀ text ∈ phrase.keywords, text = "DEFAULT") (List.forall_mem_nil _)
    (fun _ later => later) fun item member rest later => ?_
  cases item with
  | literal value => exact later
  | default => exact List.forall_mem_cons.mpr ⟨rfl, later⟩
  | call name arguments =>
    have none : (Phrase.listed (arguments.map Word.literal)).keywords = [] := keywords_listed fun word inside text => by
      obtain ⟨value, -, rfl⟩ := List.mem_map.mp inside
      exact nofun
    have whole : ((RowItem.call name arguments).phrase rest).keywords =
        (Phrase.listed (arguments.map .literal)).keywords ++ rest.keywords := rfl
    rw [whole, none]
    exact later

/-- Once DEFAULT has come, nothing more is read. -/
theorem values_after_default {items : List RowItem} (known : ∀ item ∈ items, item.Known)
    (clause : context.clause = some "DEFAULT") (glued : Bool) :
    (spots context before ((Phrase.separated RowItem.phrase .done items).lexemes glued) after).filterMap Spot.value? =
        [] := by
  have clauses := (@clauses_phrase context before after (· == "VALUES") _ (known_items known)
    (fun text member => keywords_items items text member ▸ rfl) (by rw [clause]; rfl) glued).1
  refine List.filterMap_eq_nil_iff.mpr fun spot member => if_neg ?_
  rw [Spot.endsItem, clauses spot member]
  exact Bool.false_ne_true

/-- The items of a row are read as their values, up to the first DEFAULT. -/
theorem values_row (row : context.InRow) (begins : BeginsItem before) (ends : EndsItem after) {cells : List Cell}
    (known : ∀ cell ∈ cells, cell.item.Known) (glued : Bool) (place : Nat) :
    (spots context before ((Phrase.separated RowItem.phrase .done (cells.map (·.item))).lexemes glued) after).filterMap
      Spot.value? = (Cell.values place cells).map (·.2) := by
  induction cells generalizing context before glued place with
  | nil => rfl
  | cons cell rest ih =>
    have here := known cell List.mem_cons_self
    have later (other : Cell) (member : other ∈ rest) := known other (List.mem_cons_of_mem _ member)
    have own : (cell.item.values.map fun value => (place, value)).map (·.2) = cell.item.values := by
      rw [List.map_map]
      exact List.map_id _
    rw [Cell.values, List.map_append, own]
    cases rest with
    | nil =>
      have none : (if cell.item.isDefault then [] else Cell.values (place + 1) []).map (·.2) = [] := by split <;> rfl
      rw [none, List.append_nil]
      exact values_item row begins ends here glued
    | cons next more =>
      let items := (next :: more).map (·.item)
      have whole : (Phrase.separated RowItem.phrase .done (cell.item :: items)).lexemes glued =
          (cell.item.phrase .done).lexemes glued ++
            comma :: (Phrase.separated RowItem.phrase .done items).lexemes false := lexemes_item ..
      change (spots context before
          ((Phrase.separated RowItem.phrase .done (cell.item :: items)).lexemes glued) after).filterMap _ = _
      rw [whole]
      refine values_comma (values_item row begins rfl here glued) ?_
      cases lasting : cell.item.isDefault with
      | true =>
        have isDefault : cell.item = .default := by
          cases item : cell.item with
          | default => rfl
          | literal | call => rw [item] at lasting; cases lasting
        have normal :
            (ofKeyword "DEFAULT" (!glued)).normalized = "DEFAULT" ∧ Keyword.isInsignificant "DEFAULT" = false := by
          cases glued <;> decide
        have clause :=
          (step_significant context (ofKeyword "DEFAULT" (!glued)) rfl (by rw [normal.1]; exact normal.2)).1
        rw [normal.1] at clause
        rw [if_pos rfl, List.map_nil, isDefault]
        refine values_after_default (fun item member => ?_) (((resumes_comma _).clause).trans clause) false
        obtain ⟨other, inside, rfl⟩ := List.mem_map.mp member
        exact later other inside
      | false =>
        rw [if_neg Bool.false_ne_true]
        exact ih (resumes_row row ((resumes_item lasting glued).trans (resumes_comma _))) rfl later false (place + 1)

end Values

section Statements

variable {insertion : RowInsertion}

theorem word_inserting (insertion : RowInsertion) : insertion.word ∈ inserting := by
  unfold RowInsertion.word
  split
  · exact List.mem_cons_of_mem _ List.mem_cons_self
  · exact List.mem_cons_self

/-- What comes after VALUES. -/
def tail (insertion : RowInsertion) : Phrase := .group true insertion.row .done

/-- The beginning of the statement, up to the end of its columns. -/
def head (insertion : RowInsertion) : List Lexeme :=
  headLexemes insertion.word insertion.table insertion.first.column (insertion.more.map (·.column))

theorem lexemes_names (first : String) (more : List String) (glued : Bool) :
    (Phrase.listed ((first :: more).map .name)).lexemes glued = ofName first (!glued) :: more.flatMap fun name =>
        [comma, ofName name true] := by
  induction more generalizing first glued with
  | nil => rfl
  | cons next more ih =>
    have later := congrArg (fun rest => ofName first (!glued) :: comma :: rest) (ih next false)
    exact later

theorem lexemes_phrase :
    insertion.phrase.lexemes false = head insertion ++ ofKeyword "VALUES" true :: (tail insertion).lexemes false := by
  have columns := lexemes_names insertion.first.column (insertion.more.map (·.column)) true
  have whole : insertion.phrase.lexemes false =
      ofKeyword insertion.word true :: ofKeyword "INTO" true :: ofName insertion.table true ::
      opening :: ((Phrase.listed ((insertion.first.column :: insertion.more.map (·.column)).map .name)).lexemes true ++
        closing :: ofKeyword "VALUES" true :: (tail insertion).lexemes false) := rfl
  rw [whole, columns, head, headLexemes, listedLexemes]
  simp

theorem known_phrase (known : insertion.Known) : insertion.phrase.KnownCalls := by
  have words : "INSERT" ∈ Word.keywords ∧ "REPLACE" ∈ Word.keywords ∧ "INTO" ∈ Word.keywords ∧
      "VALUES" ∈ Word.keywords ∧
      Keyword.isFunctionLike "VALUES" = false ∧ Keyword.isFunctionLike "INTO" = false := by decide
  have first : insertion.word ∈ Word.keywords := by
    unfold RowInsertion.word
    split
    · exact words.2.1
    · exact words.1
  have columns : (Phrase.listed ((insertion.cells.map (·.column)).map .name)).Known :=
    known_listed fun word member => by
    obtain ⟨name, inside, rfl⟩ := List.mem_map.mp member
    obtain ⟨cell, among, rfl⟩ := List.mem_map.mp inside
    exact ⟨known.columns cell among, rfl⟩
  have row : insertion.row.KnownCalls := known_items fun item member => by
    obtain ⟨cell, among, rfl⟩ := List.mem_map.mp member
    exact known.items cell among
  exact ⟨.inl first, fun _ => rfl, .inl words.2.2.1, fun _ => rfl, .inl known.table, nofun,
    columns.calls, .inl words.2.2.2.1, fun call =>
      absurd (words.2.2.2.2.1.symm.trans call) Bool.false_ne_true, row, trivial⟩

theorem known_tail (known : insertion.Known) : (tail insertion).KnownCalls := (known_phrase known).2.2.2.2.2.2.2.2.2

theorem keywords_tail (insertion : RowInsertion) : ∀ text ∈ (tail insertion).keywords, text = "DEFAULT" := by
  have whole : (tail insertion).keywords = insertion.row.keywords ++ [] := rfl
  rw [whole, List.append_nil]
  exact keywords_items _

theorem opened_head (insertion : RowInsertion) : (Context.after {} (head insertion)).opened = [] := by
  have resumes : Context.Resumes { clause := some "INTO" } (Context.after {} (head insertion)) :=
    resumes_head (word_inserting insertion) _ _ _
  exact resumes.opened

/-- VALUES begins a clause. -/
theorem after_values (insertion : RowInsertion) :
    ((Context.after {} (head insertion)).step (ofKeyword "VALUES" true)).clause = some "VALUES" := by
  have normal : (ofKeyword "VALUES" true).normalized = "VALUES" ∧ Keyword.isInsignificant "VALUES" = false := by decide
  rw [(step_significant (Context.after {} (head insertion))
    (ofKeyword "VALUES" true) rfl (by rw [normal.1]; exact normal.2)).1, normal.1]

/-- No clause of the statement after its columns has names that mean anything. -/
theorem clauses_tail (known : insertion.Known) {clauses : String → Bool}
    (others : clauses "VALUES" = false ∧ clauses "DEFAULT" = false)
    {before after : List Lexeme} :
    ∀ spot ∈ spots ((Context.after {} (head insertion)).step (ofKeyword "VALUES" true)) before
      ((tail insertion).lexemes false) after, clauses spot.clause = false := by
  refine (clauses_phrase (known_tail known) (fun text member => ?_) ?_ false).1
  · rw [keywords_tail insertion text member]
    exact others.2
  · rw [after_values insertion]
    exact others.1

theorem start_phrase (insertion : RowInsertion) : Context.start (insertion.phrase.lexemes false) = {} :=
  start_inserting insertion.replaces _

section Facts

variable {limits : Limits} {sequence : TokenSequence} (known : insertion.Known)
  (reading : Reading limits insertion.phrase.text (insertion.phrase.lexemes false) sequence)

include known in
theorem names_phrase {scope : AliasDeclaration.Scope} : Names scope {} [] (insertion.phrase.lexemes false) []
    (Column.Mention.ofNames scope.names .insert (insertion.cells.map (·.column))) [] := by
  rw [lexemes_phrase]
  have later : Names scope (Context.after {} (head insertion)) ((head insertion).reverse ++ [])
      (ofKeyword "VALUES" true :: (tail insertion).lexemes false) [] [] [] :=
    .skip ⟨rfl, rfl⟩ (names_of_clauses
      (@clauses_tail insertion known (fun word => Keyword.precedesColumns word || word == "INTO") (by decide) _ _))
  have whole := (names_head (word_inserting insertion) _).append later
  rwa [List.append_nil, List.append_nil] at whole

include known in
theorem finds_phrase : Finds [insertion.table] {} [] (insertion.phrase.lexemes false) [] [insertion.table] [] := by
  have unlisted : ∀ mark ∈ ["INTO", "(", ","], mark ∉ [insertion.table] := by
    have marks : ∀ mark ∈ ["INTO", "(", ","], ¬IsBareName mark := by decide
    intro mark member here
    exact marks mark member (List.mem_singleton.mp here ▸ known.table)
  rw [lexemes_phrase]
  have later : Finds [insertion.table] (Context.after {} (head insertion)) ((head insertion).reverse ++ [])
      (ofKeyword "VALUES" true :: (tail insertion).lexemes false) [] [] [] :=
    .skip (silent_of_other rfl) (.of_clauses (@clauses_tail insertion known Keyword.precedesTables (by decide) _ _))
  exact (finds_head (word_inserting insertion) unlisted _).append later

include reading in
theorem kind_phrase : StatementKind.ofTokens sequence = .ok (if insertion.replaces then .replace else .insert) :=
  kind_inserting reading

include known reading

theorem unaliased_phrase : Table.aliases sequence (Table.names sequence []) = {} := by
  have finds := finds_phrase known
  have tables : Table.names sequence [] = [insertion.table] := by
    rw [names_eq reading.annotated, start_phrase, finds.names]
    rfl
  rw [tables, aliases_eq reading.annotated, start_phrase, finds.aliases]
  rfl

/-- The columns of the insertion are those that are listed. -/
theorem exists_facts_row : ∃ facts, (Query.ofText insertion.phrase.text limits).facts = .ok facts ∧
    facts.columnsBySection.listed .insert = distinct ((Cell.columns 0 insertion.cells).map (·.2)) := by
  have noWith (lexeme : Lexeme) (member : lexeme ∈ insertion.phrase.lexemes false) : lexeme.normalized ≠ "WITH" :=
    queryless_phrase (known_phrase known) "WITH" (.inl rfl) lexeme member
  have noSelect (lexeme : Lexeme) (member : lexeme ∈ (insertion.phrase.lexemes false).tail) :
      lexeme.normalized ≠ "SELECT" :=
    queryless_phrase (known_phrase known) "SELECT" (.inr rfl) lexeme (List.mem_of_mem_tail member)
  have bodiless := reading.bodiless noWith noSelect
  have names := @names_phrase insertion known ⟨{}, []⟩
  rw [← start_phrase insertion] at names
  have undeclared : Facts.declarations sequence {} = [] :=
    List.map_eq_nil_iff.mp (labels_eq reading.annotated bodiless names)
  have mentioned := MentionSpots.mentions_eq reading.annotated bodiless names
  have uses : Column.Mention.ofNames [] .insert (insertion.cells.map (·.column)) =
      (((Cell.columns 0 insertion.cells).map (·.2)).map (·, Section.insert)).map mentionOf := by
    rw [Cell.names_columns, Column.Mention.ofNames, List.map_map]
    exact List.map_congr_left fun name _ => ofName_bare name .insert
  rw [undeclared] at mentioned
  have other : (if insertion.replaces then StatementKind.replace else .insert) ≠ .create := by split <;> decide
  have noKeyword (lexeme : Lexeme) (member : lexeme ∈ insertion.phrase.lexemes false) :
      lexeme.reads "WITH" = false := by
    simp [Lexeme.reads, noWith lexeme member]
  obtain ⟨facts, read, lists⟩ := exists_facts_undeclared reading (kind_phrase reading) other noKeyword bodiless
    (unaliased_phrase known reading) undeclared (mentioned.trans uses)
  refine ⟨facts, read, ?_⟩
  rw [lists.columnsBySection, ← SectionMap.grouped_eq, SectionMap.grouped, SectionMap.listed_addUses .nil,
    SectionMap.namesIn_map, if_pos rfl]
  rfl

/-- The values are those of the row. -/
theorem values_phrase :
    (Query.ofText insertion.phrase.text limits).values = .ok ((Cell.values 0 insertion.cells).map (·.2)) := by
  have valued : StatementKind.hasValues (if insertion.replaces then .replace else .insert) = true := by split <;> rfl
  let columns := head insertion
  let opened := (Context.after {} columns).step (ofKeyword "VALUES" true)
  have clause : opened.clause = some "VALUES" := after_values insertion
  have outside :
      (spots {} [] columns (ofKeyword "VALUES" true :: (tail insertion).lexemes false)).filterMap Spot.value? = [] := by
    have noKeyword : ∀ lexeme ∈ columns, lexeme.Avoids (· == "VALUES") := by
      have words : ∀ word ∈ "INTO" :: inserting, (ofKeyword word true).normalized ≠ "VALUES" := by decide
      have keyword {word : String} (known : word ∈ "INTO" :: inserting) :
          (ofKeyword word true).Avoids (· == "VALUES") := fun _ =>
        .inr (beq_eq_false_iff_ne.mpr (words word known))
      intro lexeme member
      rcases mem_headLexemes member with ⟨name, apart, rfl⟩ | rfl | mark
      · exact avoids_unkeyed rfl
      · exact keyword (List.mem_cons_of_mem _ (word_inserting insertion))
      · simp only [List.mem_cons, List.not_mem_nil, or_false] at mark
        rcases mark with rfl | rfl | rfl | rfl
        · exact keyword List.mem_cons_self
        · exact avoids_unkeyed rfl
        · exact avoids_unkeyed rfl
        · exact avoids_unkeyed rfl
    have clauses :=
      @clause_of_avoids {} (· == "VALUES") columns [] (ofKeyword "VALUES" true :: (tail insertion).lexemes false)
      ⟨rfl, List.forall_mem_nil _⟩ noKeyword
    refine List.filterMap_eq_nil_iff.mpr fun spot member => if_neg ?_
    rw [Spot.endsItem, clauses spot member]
    exact Bool.false_ne_true
  have row : (opened.step opening).InRow := ⟨clause, List.cons_ne_nil _ _⟩
  have inside :=
    @values_row _ (opening :: ofKeyword "VALUES" true :: (columns.reverse ++ []))
      ([closing] ++ []) row rfl rfl insertion.cells known.items true 0
  have whole : (tail insertion).lexemes false = opening :: (insertion.row.lexemes true ++ [closing]) := rfl
  rw [values_eq reading (kind_phrase reading) valued, start_phrase, lexemes_phrase, spots_append,
    List.filterMap_append, List.append_nil, outside, filterMap_cons, value?_outside (opened_head insertion),
    whole, filterMap_cons, value?_of_mark rfl, spots_append, List.filterMap_append, RowInsertion.row,
      inside, filterMap_cons, value?_of_mark rfl]
  exact congrArg Except.ok (List.append_nil _)

end Facts

variable {limits : Limits} (known : insertion.Known) (apart : (insertion.cells.map (·.column)).Nodup)
  (deep : insertion.phrase.depth ≤ limits.maxNestingDepth)
  (few : (insertion.phrase.lexemes false).length ≤ limits.maxTokens)
include known apart deep few

/-- The listed columns are given the values that are read, in their order. So every literal is given to its
column, and no column what stands in another place, if and only if the cells are aligned. -/
theorem aligned_values_iff : ∃ assignments, (Query.ofText insertion.phrase.text limits).assignments = .ok assignments ∧
    assignments = Cell.assigned insertion.cells ∧
    (((∀ cell ∈ insertion.cells, ∀ value, cell.item = .literal value → (cell.column, value.value) ∈ assignments) ∧
      ∀ pair ∈ Cell.pairs 0 insertion.cells, pair.1.1 = pair.2.1) ↔ Cell.Aligned insertion.cells) := by
  obtain ⟨sequence, reading⟩ := exists_reading_phrase (known_phrase known) deep few
  obtain ⟨facts, read, listed⟩ := exists_facts_row known reading
  have once : ((Cell.columns 0 insertion.cells).map (·.2)).Nodup := by
    rw [Cell.names_columns]
    exact apart.filter _
  rw [distinct_of_nodup once] at listed
  refine ⟨Cell.assigned insertion.cells, ?_, rfl, Cell.assigned_iff_aligned apart⟩
  have columns : (facts.columnsBySection.find? .insert).getD [] = (Cell.columns 0 insertion.cells).map (·.2) := listed
  rw [Query.assignments, values_phrase known reading, read, ← Cell.assigned_eq]
  simp only [bind, Except.bind, columns]
  cases (Cell.columns 0 insertion.cells).map (·.2) <;> rfl

end Statements

/-- What comes after DEFAULT is not read at all. -/
theorem aligned_values_default :
    ∃ assignments, (Query.ofText "INSERT INTO t (a, b) VALUES (DEFAULT, 1)" {}).assignments = .ok assignments ∧
    assignments = [("a", .text "DEFAULT")] ∧ ("b", .integer 1) ∉ assignments := by
  let insertion : RowInsertion :=
    { table := "t", first := ⟨"a", .default⟩, more := [⟨"b", .literal (.number false "1")⟩] }
  have text : insertion.phrase.text = "INSERT INTO t (a, b) VALUES (DEFAULT, 1)" := by decide
  have known : insertion.Known := ⟨by decide, by decide, by decide⟩
  have deep : insertion.phrase.depth ≤ ({} : Limits).maxNestingDepth := by decide
  have few : (insertion.phrase.lexemes false).length ≤ ({} : Limits).maxTokens := by decide
  obtain ⟨assignments, read, given, -⟩ := aligned_values_iff known (by decide) deep few
  have given : assignments = [("a", .text "DEFAULT")] := given.trans (by decide)
  rw [text] at read
  exact ⟨assignments, read, given, given ▸ by decide⟩

end QueryFacts.Proofs.RowInsertions

import QueryFacts.Proofs.PhraseTables
import QueryFacts.Proofs.ValueSpots

/-! Rows that are inserted, with assignments for those that are there already. UPDATE comes before
tables, so that the columns after it are taken for tables, until a VALUES among the assigned values;
and the names in the parentheses after VALUES are taken for values of rows. -/

namespace QueryFacts

/-- Rows for a table. -/
structure Insertion where
  replaces : Bool := false
  table : String
  columns : List String := []
  row : List Literal
  more : List (List Literal) := []

/-- What a column is updated to. -/
inductive Assigned where
  | column (name : String)
  | literal (value : Literal)
  /-- The value that the row would have in a column. -/
  | inserted (name : String)

structure Assignment where
  target : String
  value : Assigned

namespace Phrase

/-- Items between commas, and what comes after them. -/
def separated {α : Type} (item : α → Phrase → Phrase) (rest : Phrase) : List α → Phrase
  | [] => rest
  | [last] => item last rest
  | first :: next :: more => item first (.comma (separated item rest (next :: more)))

/-- Words between commas. -/
def listed (words : List Word) : Phrase := separated .word .done words

/-- Rows of values between commas, and what comes after them. -/
def rows (rows : List (List Literal)) (rest : Phrase) : Phrase :=
  separated (fun row => .group true (listed (row.map .literal))) rest rows

end Phrase

namespace Insertion

def columnList (insertion : Insertion) (rest : Phrase) : Phrase :=
  if insertion.columns.isEmpty then rest else .group true (.listed (insertion.columns.map .name)) rest

/-- The statement, and what comes after its rows. -/
def phrase (insertion : Insertion) (rest : Phrase) : Phrase :=
  .ofWords [.keyword (if insertion.replaces then "REPLACE" else "INSERT"), .keyword "INTO", .name insertion.table]
    (insertion.columnList (.word (.keyword "VALUES") (.rows (insertion.row :: insertion.more) rest)))

structure Known (insertion : Insertion) : Prop where
  table : IsBareName insertion.table
  columns : ∀ name ∈ insertion.columns, IsBareName name
  values : ∀ row ∈ insertion.row :: insertion.more, ∀ value ∈ row, value.Known

end Insertion

namespace Assigned

def phrase (rest : Phrase) : Assigned → Phrase
  | column name => .word (.name name) rest
  | literal value => .word (.literal value) rest
  | inserted name => .word (.keyword "VALUES") (.group false (.word (.name name) .done) rest)

def Known : Assigned → Prop
  | column name | inserted name => IsBareName name
  | literal value => value.Known

instance : (value : Assigned) → Decidable value.Known
  | column name | inserted name => inferInstanceAs (Decidable (IsBareName name))
  | literal value => inferInstanceAs (Decidable value.Known)

/-- The name in the parenthesis after VALUES. -/
def inserted? : Assigned → Option String
  | inserted name => some name
  | _ => none

end Assigned

namespace Assignment

def phrase (assignment : Assignment) (rest : Phrase) : Phrase :=
  .word (.name assignment.target) (.operator "=" (assignment.value.phrase rest))

structure Known (assignment : Assignment) : Prop where
  target : IsBareName assignment.target
  value : assignment.value.Known

/-- What is done with rows that are there already. -/
def clause (assignments : List Assignment) : Phrase :=
  .ofWords [.keyword "ON", .name "DUPLICATE", .keyword "KEY", .keyword "UPDATE"] (.separated phrase .done assignments)

/-- The columns that are taken for tables, up to the first VALUES. -/
def caught : List Assignment → List String
  | [] => []
  | assignment :: more => assignment.target :: if assignment.value.inserted?.isSome then [] else caught more

end Assignment

end QueryFacts

namespace QueryFacts.Proofs.Upserts
open Text Lexeme PlainText SelectList ColumnListStatement Clauses Spots ValueSpots Phrases PhraseTables Unnested

example :
    (Insertion.phrase { table := "t", row := [.null] }
      (Assignment.clause [⟨"a", .inserted "a"⟩, ⟨"b", .column "c"⟩])).text =
    "INSERT INTO t VALUES (NULL) ON DUPLICATE KEY UPDATE a = VALUES(a), b = c" := by decide

section Lists

/-- What the end has, commas keep and items keep, all of the list has. -/
theorem separated_induction {α : Type} {item : α → Phrase → Phrase} {rest : Phrase} {items : List α}
    {motive : Phrase → Prop}
    (last : motive rest) (comma : ∀ rest, motive rest → motive (.comma rest))
    (each : ∀ x ∈ items, ∀ rest, motive rest → motive (item x rest)) : motive (.separated item rest items) := by
  fun_induction Phrase.separated item rest items with
  | case1 => exact last
  | case2 x => exact each x List.mem_cons_self rest last
  | case3 first next more ih =>
    exact each first List.mem_cons_self _ (comma _ (ih fun x member => each x (List.mem_cons_of_mem _ member)))

variable {words : List Word}

theorem known_listed (known : ∀ word ∈ words, word.Known ∧ word.isCallable = false) : (Phrase.listed words).Known :=
  separated_induction (motive := Phrase.Known) trivial (fun _ later => later) fun word member _ later =>
    ⟨(known word member).1, fun call => absurd ((known word member).2.symm.trans call) Bool.false_ne_true, later⟩

theorem keywords_listed (none : ∀ word ∈ words, ∀ text, word ≠ .keyword text) :
    (Phrase.listed words).keywords = [] := by
  refine separated_induction
    (motive := fun phrase => phrase.keywords = []) rfl (fun _ later => later) fun word member rest later => ?_
  cases word with
  | keyword text => exact absurd rfl (none _ member text)
  | name | literal => exact later

theorem depth_listed (words : List Word) : (Phrase.listed words).depth = 0 :=
  separated_induction (motive := fun phrase => phrase.depth = 0) rfl (fun _ later => later) fun _ _ _ later => later

variable {rows : List (List Literal)} {rest : Phrase}

theorem known_rows (known : ∀ row ∈ rows, ∀ value ∈ row, value.Known) (later : rest.Known) :
    (Phrase.rows rows rest).Known := by
  refine separated_induction (motive := Phrase.Known) later (fun _ later => later) fun row member _ later =>
    ⟨known_listed ?_, later⟩
  intro word inside
  obtain ⟨value, among, rfl⟩ := List.mem_map.mp inside
  exact ⟨known row member value among, rfl⟩

theorem depth_rows (shallow : rest.depth ≤ 1) : (Phrase.rows rows rest).depth ≤ 1 := by
  refine separated_induction (motive := fun phrase => phrase.depth ≤ 1) shallow
    (fun _ later => later) fun row _ _ later => ?_
  rw [Phrase.depth, depth_listed]
  exact Nat.max_le.mpr ⟨Nat.le_refl 1, later⟩

/-- A list in parentheses names no tables. -/
theorem tables_listed (none : ∀ word ∈ words, ∀ text, word ≠ .keyword text) (view : NameView) :
    (Phrase.listed words).tables view.inside true = [] :=
  tables_of_quiet (by rw [keywords_listed none]; exact List.forall_mem_nil _) rfl true

theorem tables_rows (starts : Bool) : (Phrase.rows rows rest).tables .none starts = rest.tables .none false := by
  refine separated_induction (motive := fun phrase => ∀ starts, phrase.tables .none starts = rest.tables .none false)
    (fun starts => ?_) (fun _ later starts => later true) (fun row _ _ later starts => ?_) starts
  · cases rest <;> rfl
  · rw [Phrase.tables, later false, tables_listed fun word inside text => ?_]
    · rfl
    · obtain ⟨value, -, rfl⟩ := List.mem_map.mp inside
      exact fun same => by cases same

theorem lexemes_rows (row : List Literal) (more : List (List Literal)) :
    ∃ front, ∀ glued rest, (Phrase.rows (row :: more) rest).lexemes glued = front ++ closing :: rest.lexemes false := by
  let values (row : List Literal) : List Lexeme :=
    ⟨.punctuation, "(", none, true⟩ :: (Phrase.listed (row.map .literal)).lexemes true
  induction more generalizing row with
  | nil => exact ⟨values row, fun glued rest => rfl⟩
  | cons next more ih =>
    obtain ⟨front, split⟩ := ih next
    refine ⟨values row ++ closing :: comma :: front, fun glued rest => ?_⟩
    change values row ++ closing :: comma :: (Phrase.rows (next :: more) rest).lexemes false = _
    rw [split]
    simp

end Lists

section Assignments

variable {assignments : List Assignment}

private theorem known_assigned {value : Assigned} (known : value.Known) {rest : Phrase} (later : rest.Known) :
    (value.phrase rest).Known := by
  have values : "VALUES" ∈ Word.keywords ∧ Keyword.isFunctionLike "VALUES" = false := by decide
  have noCall (call : false = true) : rest.beginsGroup = false := absurd call Bool.false_ne_true
  cases value with
  | column name => exact ⟨known, noCall, later⟩
  | literal value => exact ⟨known, noCall, later⟩
  | inserted name =>
    exact ⟨values.1, fun call => absurd (values.2.symm.trans call) Bool.false_ne_true,
      ⟨known, fun _ => rfl, trivial⟩, later⟩

theorem known_clause (known : ∀ assignment ∈ assignments, assignment.Known) :
    (Assignment.clause assignments).Known := by
  have list : (Phrase.separated Assignment.phrase .done assignments).Known := by
    refine separated_induction (motive := Phrase.Known) trivial
      (fun _ later => later) fun assignment member rest later => ?_
    refine ⟨(known assignment member).target, fun _ => rfl, by decide, ?_,
      known_assigned (known assignment member).value later⟩
    cases assignment.value <;> rfl
  refine known_ofWords (by decide) list ?_
  cases assignments with
  | nil => rfl
  | cons first more => cases more <;> rfl

theorem depth_clause (assignments : List Assignment) : (Assignment.clause assignments).depth ≤ 1 := by
  change (Phrase.separated Assignment.phrase .done assignments).depth ≤ 1
  refine separated_induction (motive := fun phrase => phrase.depth ≤ 1) (Nat.zero_le 1) (fun _ later => later) ?_
  rintro ⟨target, value⟩ - rest later
  cases value with
  | column | literal => exact later
  | inserted name => exact Nat.max_le.mpr ⟨Nat.le_refl 1, later⟩

private theorem keywords_list :
    ∀ text ∈ (Phrase.separated Assignment.phrase .done assignments).keywords, text = "VALUES" := by
  refine separated_induction (motive := fun phrase => ∀ text ∈ phrase.keywords, text = "VALUES") (List.forall_mem_nil _)
    (fun _ later => later) ?_
  rintro ⟨target, value⟩ - rest later
  cases value with
  | column | literal => exact later
  | inserted name =>
    intro text member
    exact (List.mem_cons.mp member).elim id (later text)

/-- Up to the first VALUES the columns stand in the places of tables. -/
theorem tables_clause (assignments : List Assignment) :
    (Assignment.clause assignments).tables .none false = Assignment.caught assignments := by
  let listing : NameView := ⟨true, true⟩
  have begins (assignment : Assignment) (rest : Phrase) : (assignment.phrase rest).tables listing true =
      assignment.target :: if assignment.value.inserted?.isSome then
          rest.tables .none false else rest.tables listing false := by
    obtain ⟨target, value⟩ := assignment
    cases value <;> rfl
  change (Phrase.separated Assignment.phrase .done assignments).tables listing true = _
  fun_induction Phrase.separated Assignment.phrase .done assignments with
  | case1 => rfl
  | case2 last => rw [begins, Assignment.caught]; split <;> rfl
  | case3 first next more ih =>
    rw [begins, Assignment.caught]
    split
    next =>
      have quiet :
          ∀ text ∈ (Phrase.separated Assignment.phrase .done (next :: more)).keywords, Keyword.precedesTables text =
              false :=
        fun text member => keywords_list text member ▸ by decide
      exact congrArg (first.target :: ·) (tables_of_quiet quiet rfl true)
    next => exact congrArg (first.target :: ·) ih

end Assignments

section Values

/-- Outside of other parentheses a phrase has these values. -/
def Yields (phrase : Phrase) (values : List Value) : Prop :=
  ∀ (context : Context) (before : List Lexeme), context.opened = [] →
  (spots context before (phrase.lexemes false) []).filterMap Spot.value? = values

variable {rest : Phrase} {values : List Value}

theorem yields_done : Yields .done [] := fun _ _ _ => rfl

theorem yields_word (later : Yields rest values) (word : Word) : Yields (.word word rest) values := by
  intro context before opened
  have flat := flat_word word true
  rw [Phrase.lexemes, Bool.not_false, spots_append, List.filterMap_append, values_flat flat opened, List.nil_append]
  exact later _ _ ((opened_after flat).trans opened)

theorem yields_operator (later : Yields rest values) (symbol : String) : Yields (.operator symbol rest) values := by
  intro context before opened
  rw [Phrase.lexemes, filterMap_cons, value?_outside opened]
  exact later _ _ ((opened_step rfl).trans opened)

theorem yields_comma (later : Yields rest values) : Yields (.comma rest) values := by
  intro context before opened
  rw [Phrase.lexemes, filterMap_cons, value?_outside opened]
  exact later _ _ ((opened_step rfl).trans opened)

/-- The name of a column after VALUES ends an item like the last literal of a row. -/
theorem yields_inserted {name : String} (bare : IsBareName name) (later : Yields rest values) :
    Yields (.word (.keyword "VALUES") (.group false (.word (.name name) .done) rest)) (.text name :: values) := by
  intro context before opened
  let keyword := ofKeyword "VALUES" true
  let opening : Lexeme := ⟨.punctuation, "(", none, false⟩
  have normal : keyword.normalized = "VALUES" ∧ Keyword.isInsignificant keyword.normalized = false := by decide
  obtain ⟨clause, -, level⟩ := step_significant context keyword rfl normal.2
  rw [normal.1] at clause
  have inside : Spot.value? ⟨(context.step keyword).step opening, opening :: keyword :: before, ofName name false,
      closing :: rest.lexemes false ++ []⟩ = some (.text name) := by
    have unsigned : name ≠ "-" := by
      rintro rfl
      cases bare.spelled
    have ends : Spot.endsItem ⟨(context.step keyword).step opening, opening :: keyword :: before, ofName name false,
        closing :: rest.lexemes false ++ []⟩ = true := by
      have here : (((context.step keyword).step opening).clause.getD "" == "VALUES") = true := by
        change ((context.step keyword).clause.getD "" == "VALUES") = true
        rw [clause]
        rfl
      have sign : ((ofName name false).value != "-") = true := by simpa [ofName] using unsigned
      rw [Spot.endsItem, Spot.clause, here, sign]
      rfl
    rw [Spot.value?, if_pos ends]
    exact congrArg some (readValue_name bare.spelled false)
  have resumes :
      (context.step keyword).Resumes ((((context.step keyword).step opening).step (ofName name false)).step closing) :=
    @resumes_group (context.step keyword) [ofName name false]
      (fun lexeme member => List.mem_singleton.mp member ▸ rfl) false
  change (spots context before (keyword :: opening :: ofName name false :: closing :: rest.lexemes false)
      []).filterMap Spot.value? = _
  rw [filterMap_cons, filterMap_cons, filterMap_cons, filterMap_cons, value?_outside opened, value?_of_mark rfl, inside,
    value?_of_mark rfl, later _ _ (resumes.opened.trans (level.trans opened))]
  rfl

theorem yields_clause {assignments : List Assignment} (known : ∀ assignment ∈ assignments, assignment.Known) :
    Yields (Assignment.clause assignments) ((assignments.filterMap (·.value.inserted?)).map .text) := by
  have single {assignment : Assignment} (known : assignment.Known) {rest : Phrase} {values : List Value}
      (later : Yields rest values) :
      Yields (assignment.phrase rest) ((assignment.value.inserted?.map .text).toList ++ values) := by
    obtain ⟨target, value⟩ := assignment
    refine yields_word (yields_operator ?_ _) _
    cases value with
    | column | literal => exact yields_word later _
    | inserted name => exact yields_inserted known.value later
  have list :
      Yields (.separated Assignment.phrase .done assignments)
          ((assignments.filterMap (·.value.inserted?)).map .text) := by
    fun_induction Phrase.separated Assignment.phrase .done assignments with
    | case1 => exact yields_done
    | case2 last =>
      have here := single (known last List.mem_cons_self) yields_done
      cases inserted : last.value.inserted? <;> simpa [inserted] using here
    | case3 first next more ih =>
      have here :=
        single (known first List.mem_cons_self)
          (yields_comma (ih fun other member => known other (List.mem_cons_of_mem _ member)))
      rw [List.filterMap_cons]
      cases inserted : first.value.inserted? <;> simpa [inserted] using here
  exact yields_word (yields_word (yields_word (yields_word list _) _) _) _

end Values

section Statements

variable {insertion : Insertion} {rest : Phrase}

theorem known_phrase (known : insertion.Known) (later : rest.Known) : (insertion.phrase rest).Known := by
  have words : "INSERT" ∈ Word.keywords ∧ "REPLACE" ∈ Word.keywords ∧ "INTO" ∈ Word.keywords ∧
      "VALUES" ∈ Word.keywords ∧
      Keyword.isFunctionLike "VALUES" = false := by decide
  have rows : (Phrase.word (.keyword "VALUES") (.rows (insertion.row :: insertion.more) rest)).Known :=
    ⟨words.2.2.2.1, fun call => absurd (words.2.2.2.2.symm.trans call) Bool.false_ne_true,
      known_rows known.values later⟩
  have columns :
      (insertion.columnList (.word (.keyword "VALUES") (.rows (insertion.row :: insertion.more) rest))).Known := by
    unfold Insertion.columnList
    split
    · exact rows
    · refine ⟨known_listed fun word member => ?_, rows⟩
      obtain ⟨name, inside, rfl⟩ := List.mem_map.mp member
      exact ⟨known.columns name inside, rfl⟩
  have first : (if insertion.replaces then "REPLACE" else "INSERT") ∈ Word.keywords := by
    split
    · exact words.2.1
    · exact words.1
  exact ⟨first, fun _ => rfl, words.2.2.1, fun _ => rfl, known.table, fun call =>
    absurd call Bool.false_ne_true, columns⟩

theorem tables_phrase : (insertion.phrase rest).tables .none false = insertion.table :: rest.tables .none false := by
  have columns (rest : Phrase) : (insertion.columnList (.word (.keyword "VALUES") rest)).tables ⟨true, true⟩ false =
      rest.tables .none true := by
    unfold Insertion.columnList
    split
    · rfl
    · rw [Phrase.tables, tables_listed fun word member text => ?_]
      · rfl
      · obtain ⟨name, -, rfl⟩ := List.mem_map.mp member
        exact fun same => by cases same
  have whole (keyword : String) (start : keyword = "INSERT" ∨ keyword = "REPLACE") (rest : Phrase) :
      (Phrase.ofWords [.keyword keyword, .keyword "INTO", .name insertion.table] rest).tables .none false =
        insertion.table :: rest.tables ⟨true, true⟩ false := by rcases start with rfl | rfl <;> rfl
  rw [Insertion.phrase, whole _ (by split <;> simp), columns, tables_rows]

theorem depth_phrase (shallow : rest.depth ≤ 1) : (insertion.phrase rest).depth ≤ 1 := by
  have rows : (Phrase.rows (insertion.row :: insertion.more) rest).depth ≤ 1 := depth_rows shallow
  change (insertion.columnList (.word (.keyword "VALUES") (.rows (insertion.row :: insertion.more) rest))).depth ≤ 1
  unfold Insertion.columnList
  split
  · exact rows
  · rw [Phrase.depth, depth_listed]
    exact Nat.max_le.mpr ⟨Nat.le_refl 1, rows⟩

/-- The last row ends with a parenthesis that closes. -/
theorem lexemes_phrase (insertion : Insertion) : ∃ front, ∀ rest, (insertion.phrase rest).lexemes false =
    front ++ [closing] ++ rest.lexemes false := by
  obtain ⟨front, split⟩ := lexemes_rows insertion.row insertion.more
  let head :=
    [ofKeyword (if insertion.replaces then "REPLACE" else "INSERT") true, ofKeyword "INTO" true,
      ofName insertion.table true]
  let columns := (insertion.columnList .done).lexemes false
  refine ⟨head ++ columns ++ ofKeyword "VALUES" true :: front, fun rest => ?_⟩
  have listed (rest : Phrase) : (insertion.columnList rest).lexemes false = columns ++ rest.lexemes false := by
    unfold columns Insertion.columnList
    split
    · rfl
    · simp [Phrase.lexemes]
  have whole (rest : Phrase) : (insertion.phrase rest).lexemes false = head ++
      (insertion.columnList (.word (.keyword "VALUES") (.rows (insertion.row :: insertion.more) rest))).lexemes false :=
    rfl
  rw [whole, listed, Phrase.lexemes, split]
  simp [Word.lexemes]

theorem start_phrase (rest : Phrase) : Context.start ((insertion.phrase rest).lexemes false) = {} :=
  start_inserting insertion.replaces _

variable {limits : Limits} {sequence : TokenSequence}

theorem kind_phrase
    (reading : Reading limits (insertion.phrase rest).text ((insertion.phrase rest).lexemes false) sequence) :
    StatementKind.ofTokens sequence = .ok (if insertion.replaces then .replace else .insert) := kind_inserting reading

variable (known : insertion.Known) (later : rest.Known)
include known later

theorem exists_reading_insertion (shallow : rest.depth ≤ 1) (deep : 1 ≤ limits.maxNestingDepth)
    (few : ((insertion.phrase rest).lexemes false).length ≤ limits.maxTokens) :
    ∃ sequence, Reading limits (insertion.phrase rest).text ((insertion.phrase rest).lexemes false) sequence := by
  exact exists_reading_phrase (known_phrase known later).calls (Nat.le_trans (depth_phrase shallow) deep) few

variable (reading : Reading limits (insertion.phrase rest).text ((insertion.phrase rest).lexemes false) sequence)
include reading

theorem exists_facts_insertion : ∃ facts, (Query.ofText (insertion.phrase rest).text limits).facts = .ok facts ∧
    facts.tables = distinct (insertion.table :: rest.tables .none false) := by
  have other : ((if insertion.replaces then StatementKind.replace else .insert) == .create) = false := by split <;> rfl
  obtain ⟨facts, read, tables, -⟩ := exists_facts_phrase (known_phrase known later) reading (kind_phrase reading)
    (by rw [other, Bool.false_and])
  exact ⟨facts, read, tables.trans (congrArg distinct tables_phrase)⟩

omit known later in
/-- What comes after the rows adds its values to theirs. -/
theorem values_phrase {values : List Value} (yields : Yields rest values) :
    (Query.ofText (insertion.phrase rest).text limits).values =
      .ok ((spots {} [] ((insertion.phrase .done).lexemes false) []).filterMap Spot.value? ++ values) := by
  have carries : StatementKind.hasValues (if insertion.replaces then .replace else .insert) = true := by split <;> rfl
  obtain ⟨front, split⟩ := lexemes_phrase insertion
  have rows := split .done
  rw [Phrase.lexemes, List.append_nil] at rows
  have level : (Context.after {} (front ++ [closing])).opened = [] :=
    rows ▸ opened_phrase (insertion.phrase .done) false {}
  rw [values_eq reading (kind_phrase reading) carries, start_phrase, rows, split, spots_append, List.filterMap_append,
    values_until rfl, yields _ _ level]

end Statements

section Upserts

variable {insertion : Insertion} {assignments : List Assignment} {limits : Limits} (known : insertion.Known)
  (assigned : ∀ assignment ∈ assignments, assignment.Known) (deep : 1 ≤ limits.maxNestingDepth)
  (few : ((insertion.phrase (Assignment.clause assignments)).lexemes false).length ≤ limits.maxTokens)
include known assigned deep few

/-- The assigned columns up to the first VALUES are tables of the statement, and the names after each VALUES are
values of it. Only if all these columns are called like the table, and nothing is assigned from the rows, the
assignments change nothing. -/
theorem upsert_unchanged_iff : ∃ facts before after,
    (Query.ofText (insertion.phrase .done).text limits).values = .ok before ∧
      (Query.ofText (insertion.phrase (Assignment.clause assignments)).text limits).facts = .ok facts ∧
      (Query.ofText (insertion.phrase (Assignment.clause assignments)).text limits).values = .ok after ∧
      facts.tables = distinct (insertion.table :: Assignment.caught assignments) ∧
      after = before ++ (assignments.filterMap (·.value.inserted?)).map .text ∧
        ((facts.tables = [insertion.table] ∧ after = before) ↔
          (∀ target ∈ Assignment.caught assignments, target = insertion.table) ∧
          ∀ assignment ∈ assignments, assignment.value.inserted? = none) := by
  have clause := known_clause assigned
  have fewer : ((insertion.phrase .done).lexemes false).length ≤ limits.maxTokens := by
    obtain ⟨front, split⟩ := lexemes_phrase insertion
    rw [split, List.length_append] at few ⊢
    exact Nat.le_trans (Nat.add_le_add_left (Nat.zero_le _) _) few
  have done : Phrase.Known .done := trivial
  obtain ⟨plain, readPlain⟩ := exists_reading_insertion known done (Nat.zero_le 1) deep fewer
  obtain ⟨whole, readWhole⟩ := exists_reading_insertion known clause (depth_clause assignments) deep few
  obtain ⟨facts, read, tables⟩ := exists_facts_insertion known clause readWhole
  rw [tables_clause] at tables
  refine ⟨facts, _, _, values_phrase readPlain yields_done, read,
    values_phrase readWhole (yields_clause assigned), tables, ?_, ?_⟩
  · rw [List.append_nil]
  · have alone :
        facts.tables = [insertion.table] ↔ ∀ target ∈ Assignment.caught assignments, target = insertion.table :=
      tables ▸ distinct_cons_eq_singleton
    rw [List.append_nil, alone, List.append_right_eq_self, List.map_eq_nil_iff, List.filterMap_eq_nil_iff]

end Upserts

/-- The columns are taken for tables, and a column after VALUES for a value. -/
theorem upsert_changed : ∃ facts before after,
    (Query.ofText "INSERT INTO t (a, b) VALUES (1, 'x')" {}).values = .ok before ∧
      (Query.ofText "INSERT INTO t (a, b) VALUES (1, 'x') ON DUPLICATE KEY UPDATE a = 2, b = VALUES(b), c = 5"
        {}).facts = .ok facts ∧
      (Query.ofText "INSERT INTO t (a, b) VALUES (1, 'x') ON DUPLICATE KEY UPDATE a = 2, b = VALUES(b), c = 5"
        {}).values = .ok after ∧
      facts.tables = ["t", "a", "b"] ∧ after = before ++ [.text "b"] := by
  let insertion : Insertion := { table := "t", columns := ["a", "b"], row := [.number false "1", .string "x"] }
  let assignments : List Assignment :=
    [⟨"a", .literal (.number false "2")⟩, ⟨"b", .inserted "b"⟩, ⟨"c", .literal (.number false "5")⟩]
  have texts : (insertion.phrase .done).text = "INSERT INTO t (a, b) VALUES (1, 'x')" ∧
      (insertion.phrase (Assignment.clause assignments)).text =
        "INSERT INTO t (a, b) VALUES (1, 'x') ON DUPLICATE KEY UPDATE a = 2, b = VALUES(b), c = 5" := by decide
  have assigned : ∀ assignment ∈ assignments, IsBareName assignment.target ∧ assignment.value.Known := by decide
  have known : insertion.Known := ⟨by decide, by decide, by decide⟩
  have deep : 1 ≤ ({} : Limits).maxNestingDepth := by decide
  obtain ⟨facts, before, after, plain, read, whole, tables, values, -⟩ := upsert_unchanged_iff known
    (fun assignment member => ⟨(assigned assignment member).1, (assigned assignment member).2⟩) deep (by decide)
  rw [texts.1] at plain
  rw [texts.2] at read whole
  exact ⟨facts, before, after, plain, read, whole, tables, values⟩

end QueryFacts.Proofs.Upserts

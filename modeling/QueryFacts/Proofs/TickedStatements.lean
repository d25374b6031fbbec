import QueryFacts.Proofs.InsertTargets
import QueryFacts.Proofs.InsertedRows
import QueryFacts.Proofs.Multiplication
import QueryFacts.Proofs.TickedText

/-! Columns in backticks, as schema dumps have them. Between backticks a word is a name whatever it spells,
and such names are the columns of a selection, of a table that is created, and of an insertion. But the
functions that are never columns, and the words that begin constraints, are told by the spelling of a name
alone, so that a name in backticks that spells one of them is lost. -/

namespace QueryFacts
open Text Lexeme
open Proofs.ColumnListStatement (opening closing)

/-- Names that can stand in backticks and have one part. -/
structure TickedNames where
  first : String
  more : List String
  single : ∀ name ∈ first :: more, backtick ∉ name.toList ∧ '.' ∉ name.toList

namespace TickedNames

variable (names : TickedNames)

def all : List String := names.first :: names.more

/-- The names in backticks, each of them written into its item, with commas between the items. -/
def written (item : List Char → List Char) : List Char :=
  ", ".toList.intercalate (names.all.map fun name => item (enclose backtick name.toList))

def selection : String := .ofList ("SELECT ".toList ++ (names.written id ++ " FROM t".toList))

def creation : String := .ofList ("CREATE TABLE t (".toList ++ (names.written (· ++ " INT".toList) ++ ")".toList))

def insertion : String :=
  .ofList ("INSERT INTO t (".toList ++
    (names.written id ++ (") VALUES (".toList ++ (names.written (fun _ => "1".toList) ++ ")".toList))))

/-- The names that are told from functions by their spelling. -/
def columns : List String := names.all.filter (!Keyword.isIgnoredFunction ·)

/-- The names that are told from constraints by their spelling. -/
def definitions : List String := names.all.filter (!Keyword.isTableConstraint ·)

def listed (item : String → Bool → List Lexeme) (apart : Bool) : List Lexeme :=
  Lexeme.listed item apart names.first names.more

def ticked (name : String) (apart : Bool) : List Lexeme := [ofTicked name apart]

def defined (name : String) (apart : Bool) : List Lexeme := [ofTicked name apart, ofName "INT" true]

def one (_ : String) (apart : Bool) : List Lexeme := [⟨.integer, "1", none, apart⟩]

def selectionLexemes : List Lexeme :=
  ofKeyword "SELECT" true :: (names.listed ticked true ++ [ofKeyword "FROM" true, ofName "t" true])

def creationLexemes : List Lexeme :=
  ofKeyword "CREATE" true :: ofKeyword "TABLE" true :: ofName "t" true :: opening ::
    (names.listed defined false ++ [closing])

def insertionLexemes : List Lexeme :=
  ofKeyword "INSERT" true :: ofKeyword "INTO" true :: ofName "t" true :: opening :: (names.listed ticked false ++
    closing :: ofKeyword "VALUES" true :: opening :: (names.listed one false ++ [closing]))

end TickedNames

end QueryFacts

namespace QueryFacts.Proofs.TickedStatements
open Text Lexer Lexeme PlainText TickedText ColumnListStatement Parenthesis Spots Clauses MentionSpots
open SelectList NestingRun CreatedColumns
  Unnested MeantColumns

variable {names : TickedNames}

section Texts

variable {after : List Char} {lexemes : List Lexeme}

private theorem readsAs_keyword {text word : String} (split : text.toList = word.toList ++ [' '])
    (spelled : isIdentifier word.toList = true) (reserved : Keyword.isReserved (upper word) = true)
    (rest : ReadsAs false after lexemes) :
    ReadsAs false (text.toList ++ after) (ofKeyword word true :: lexemes) := by
  rw [split, List.append_assoc]
  exact readsAs_word spelled (by rw [if_pos reserved]) rfl (readsAs_gap rest) true

private theorem readsAs_name (name : String) (spelled : isIdentifier name.toList = true)
    (free : Keyword.isReserved (upper name) = false)
    (bounded : after.head?.all isBoundary = true) (rest : ReadsAs true after lexemes) :
    ReadsAs false (name.toList ++ after) (ofName name true :: lexemes) :=
  readsAs_word spelled (by rw [if_neg (by simp [free])]) bounded rest true

private theorem readsAs_opening (rest : ReadsAs true after lexemes) :
    ReadsAs false ("(".toList ++ after) (opening :: lexemes) :=
  readsAs_mark (.inl rfl) true rest

private theorem readsAs_closing (rest : ReadsAs true after lexemes) :
    ReadsAs true (")".toList ++ after) (closing :: lexemes) :=
  readsAs_mark (.inr (.inl rfl)) false rest

private theorem readsAs_end : ReadsAs true ")".toList [closing] := by
  have last := readsAs_closing readsAs_nil
  rwa [List.append_nil] at last

/-- A list of the names is read item by item. -/
private theorem readsAs_names {write : List Char → List Char} {item : String → Bool → List Lexeme}
    (each : ∀ name, backtick ∉ name.toList → ∀ (apart : Bool) (after : List Char) (lexemes : List Lexeme), IsEnd after →
      ReadsAs true after lexemes →
        ReadsAs (!apart) (write (enclose backtick name.toList) ++ after) (item name apart ++ lexemes))
    (ends : IsEnd after) (rest : ReadsAs true after lexemes) (apart : Bool) :
    ReadsAs (!apart) (names.written write ++ after) (names.listed item apart ++ lexemes) :=
  readsAs_listed (fun name member => each name (names.single name member).1) ends rest apart

private theorem readsAs_columns (names : TickedNames) (ends : IsEnd after)
    (rest : ReadsAs true after lexemes) (apart : Bool) :
    ReadsAs (!apart) (names.written id ++ after) (names.listed TickedNames.ticked apart ++ lexemes) :=
  readsAs_names
    (fun _ single apart _ _ ends rest => readsAs_ticked single (isBoundary_of_isEnd ends) apart rest) ends rest apart

/-- Two words, the table, and the parenthesis. -/
private theorem readsAs_head {text first second : String}
    (split : text.toList = first.toList ++ ' ' :: (second.toList ++ " t (".toList))
    (spelled : isIdentifier first.toList = true ∧ isIdentifier second.toList = true)
    (reserved : Keyword.isReserved (upper first) = true ∧ Keyword.isReserved (upper second) = true)
    (rest : ReadsAs true after lexemes) :
    ReadsAs false (text.toList ++ after)
        (ofKeyword first true :: ofKeyword second true :: ofName "t" true :: opening :: lexemes) := by
  have table : " t (".toList ++ after = ' ' :: ("t".toList ++ ' ' :: ("(".toList ++ after)) := rfl
  have opened := readsAs_gap (readsAs_name "t" (by decide) (by decide) rfl (readsAs_gap (readsAs_opening rest)))
  rw [split, List.append_assoc, List.cons_append, List.append_assoc, table]
  exact readsAs_word spelled.1 (by rw [if_pos reserved.1]) rfl
    (readsAs_gap (readsAs_word spelled.2 (by rw [if_pos reserved.2]) rfl opened true)) true

theorem readsAs_selection (names : TickedNames) : ReadsAs false names.selection.toList names.selectionLexemes := by
  have table : ReadsAs false "t".toList [ofName "t" true] := by
    have last := @readsAs_name [] [] "t" (by decide) (by decide) rfl readsAs_nil
    rwa [List.append_nil] at last
  have source : ReadsAs true " FROM t".toList [ofKeyword "FROM" true, ofName "t" true] :=
    readsAs_gap (readsAs_keyword (show "FROM ".toList = "FROM".toList ++ [' '] by decide) (by decide) (by decide) table)
  have columns := readsAs_columns names (show IsEnd " FROM t".toList from rfl) source true
  have same : names.selection.toList = _ := String.toList_ofList
  rw [same]
  exact readsAs_keyword (show "SELECT ".toList = "SELECT".toList ++ [' '] by decide) (by decide) (by decide) columns

theorem readsAs_creation (names : TickedNames) : ReadsAs false names.creation.toList names.creationLexemes := by
  have columns := @readsAs_names names ")".toList [closing] (· ++ " INT".toList) TickedNames.defined
    (fun name single apart after lexemes ends rest => by
      have type := readsAs_gap (readsAs_name "INT" (by decide) (by decide) (isBoundary_of_isEnd ends) rest)
      have gap : " INT".toList ++ after = ' ' :: ("INT".toList ++ after) := rfl
      rw [List.append_assoc, gap]
      exact readsAs_ticked single rfl apart type)
    rfl readsAs_end false
  have same : names.creation.toList = _ := String.toList_ofList
  rw [same]
  exact readsAs_head (show "CREATE TABLE t (".toList =
    "CREATE".toList ++ ' ' :: ("TABLE".toList ++ " t (".toList) by decide)
    ⟨by decide, by decide⟩ ⟨by decide, by decide⟩ columns

theorem readsAs_insertion (names : TickedNames) : ReadsAs false names.insertion.toList names.insertionLexemes := by
  have row := @readsAs_names names ")".toList [closing] (fun _ => "1".toList) TickedNames.one
    (fun _ _ apart _ _ ends rest => by
      have told : Told ⟨.integer, "1", none, apart⟩ :=
        .plain (.number (by decide) (by decide)) (show "1" ≠ "*" by decide)
      exact readsAs_cons told ends rest)
    rfl readsAs_end false
  have values :=
    readsAs_gap (readsAs_keyword (show "VALUES ".toList = "VALUES".toList ++ [' '] by decide) (by decide) (by decide)
    (readsAs_opening row))
  have closed : ReadsAs true (") VALUES (".toList ++ (names.written (fun _ => "1".toList) ++ ")".toList)) _ :=
    readsAs_closing values
  have columns := readsAs_columns names (show IsEnd (") VALUES (".toList ++ _) from rfl) closed false
  have same : names.insertion.toList = _ := String.toList_ofList
  rw [same]
  exact readsAs_head (show "INSERT INTO t (".toList =
    "INSERT".toList ++ ' ' :: ("INTO".toList ++ " t (".toList) by decide)
    ⟨by decide, by decide⟩ ⟨by decide, by decide⟩ columns

end Texts

section Lexemes

/-- What stands between the names, but for the first word. -/
def marks : List Lexeme :=
  [ofKeyword "TABLE" true, ofKeyword "INTO" true, ofKeyword "VALUES" true, ofName "t" true, ofName "INT" true,
  opening, closing, comma, ⟨.integer, "1", none, true⟩, ⟨.integer, "1", none, false⟩]

/-- A name in backticks, or one of these. -/
def Expected (lexeme : Lexeme) : Prop := (∃ name apart, lexeme = ofTicked name apart) ∨ lexeme ∈ marks

/-- The first words, with the second one of each statement. -/
def verbs : List (Lexeme × Lexeme) :=
  [(ofKeyword "CREATE" true, ofKeyword "TABLE" true), (ofKeyword "INSERT" true, ofKeyword "INTO" true)]

variable {holds : Lexeme → Prop}

theorem forall_expected (ticked : ∀ name apart, holds (ofTicked name apart))
    (between : ∀ lexeme ∈ marks, holds lexeme) :
    ∀ lexeme, Expected lexeme → holds lexeme := by
  rintro lexeme (⟨name, apart, rfl⟩ | mark)
  · exact ticked name apart
  · exact between lexeme mark

theorem forall_listed {item : String → Bool → List Lexeme} (comma : holds comma)
    (each : ∀ name apart, ∀ lexeme ∈ item name apart, holds lexeme) (apart : Bool) :
    ∀ lexeme ∈ names.listed item apart, holds lexeme := by
  refine List.forall_mem_append.mpr ⟨each names.first apart, fun lexeme member => ?_⟩
  obtain ⟨name, -, here⟩ := List.mem_flatMap.mp member
  rcases List.mem_cons.mp here with rfl | inside
  · exact comma
  · exact each name true lexeme inside

theorem expected_ticked (name : String) (apart : Bool) : Expected (ofTicked name apart) := .inl ⟨name, apart, rfl⟩

theorem expected_marks {part : List Lexeme} (known : ∀ lexeme ∈ part, lexeme ∈ marks) :
    ∀ lexeme ∈ part, Expected lexeme :=
  fun lexeme member => .inr (known lexeme member)

/-- A list of items of a name and perhaps marks. -/
theorem expected_list {item : String → Bool → List Lexeme}
    (each : ∀ name apart, ∀ lexeme ∈ item name apart, Expected lexeme) :
    ∀ lexeme ∈ names.listed item false ++ [closing], Expected lexeme :=
  List.forall_mem_append.mpr ⟨forall_listed (.inr (by decide)) each false, expected_marks (by decide)⟩

theorem expected_creation (names : TickedNames) : ∀ lexeme ∈ names.creationLexemes.tail, Expected lexeme := by
  have head : ∀ lexeme ∈ [ofKeyword "TABLE" true, ofName "t" true, opening], Expected lexeme :=
    expected_marks (by decide)
  have columns := @expected_list names TickedNames.defined fun name apart =>
    List.forall_mem_cons.mpr ⟨expected_ticked name apart, expected_marks (by decide)⟩
  exact List.forall_mem_append.mpr ⟨head, columns⟩

theorem expected_insertion (names : TickedNames) : ∀ lexeme ∈ names.insertionLexemes.tail, Expected lexeme := by
  have head : ∀ lexeme ∈ [ofKeyword "INTO" true, ofName "t" true, opening], Expected lexeme :=
    expected_marks (by decide)
  have columns :=
    @expected_list names TickedNames.ticked fun name apart => List.forall_mem_singleton.mpr (expected_ticked name apart)
  have values : ∀ lexeme ∈ [ofKeyword "VALUES" true, opening], Expected lexeme := expected_marks (by decide)
  have row := @expected_list names TickedNames.one fun _ apart =>
    List.forall_mem_singleton.mpr (.inr (by cases apart <;> decide))
  have split : names.insertionLexemes.tail = [ofKeyword "INTO" true, ofName "t" true, opening] ++
      ((names.listed TickedNames.ticked false ++ [closing]) ++ ([ofKeyword "VALUES" true, opening] ++
        (names.listed TickedNames.one false ++ [closing]))) := by
    simp [TickedNames.insertionLexemes]
  rw [split]
  exact List.forall_mem_append.mpr ⟨head,
    List.forall_mem_append.mpr ⟨columns, List.forall_mem_append.mpr ⟨values, row⟩⟩⟩

variable {text : String} {verb word : Lexeme} {rest : List Lexeme} (begins : (verb, word) ∈ verbs)
  (expected : ∀ lexeme ∈ word :: rest, Expected lexeme)
include begins expected

/-- What holds of the first words too holds of all. -/
theorem forall_statement (first : ∀ pair ∈ verbs, holds pair.1) (ticked : ∀ name apart, holds (ofTicked name apart))
    (between : ∀ lexeme ∈ marks, holds lexeme) : ∀ lexeme ∈ verb :: word :: rest, holds lexeme :=
  List.forall_mem_cons.mpr ⟨first _ begins, fun lexeme member =>
    forall_expected ticked between lexeme (expected lexeme member)⟩

theorem reclassifyAll_statement : reclassifyAll (verb :: word :: rest) = verb :: word :: rest := by
  have plain : ∀ lexeme ∈ verb :: word :: rest, lexeme.kind ≠ .dot ∧ lexeme.kind ≠ .wildcard :=
    forall_statement begins expected (by decide) (fun _ _ => ⟨nofun, nofun⟩) (by decide)
  have uncalled : ∀ lexeme ∈ word :: rest, lexeme.isKeyword = true →
      Keyword.isFunctionLike (upper lexeme.value) = false :=
    fun lexeme member =>
      @forall_expected (fun lexeme => lexeme.isKeyword = true → Keyword.isFunctionLike (upper lexeme.value) = false)
      (fun _ _ keyword => by cases keyword) (by decide) lexeme (expected lexeme member)
  have start : InsertedRows.Beside verb word := by
    have apart : ∀ pair ∈ verbs, pair.2.isPunctuation "(" = false := by decide
    have word := (plain word (List.mem_cons_of_mem _ List.mem_cons_self)).1
    refine ⟨fun _ => ⟨word, fun opens => ?_⟩, fun _ => (plain verb List.mem_cons_self).1⟩
    rw [apart _ begins] at opens
    cases opens
  have others : (word :: rest).IsChain InsertedRows.Beside :=
    (List.pairwise_of_forall_mem_list fun last inside next member =>
      ⟨fun keyword => ⟨(plain next (List.mem_cons_of_mem _ member)).1, fun _ => uncalled last inside keyword⟩, fun _ =>
        (plain last (List.mem_cons_of_mem _ inside)).1⟩).isChain
  exact InsertedRows.reclassifyAll_beside (.cons_cons start others) fun lexeme member => (plain lexeme member).2

theorem ofText_statement (reads : ReadsAs false text.toList (verb :: word :: rest)) :
    Lexeme.ofText (normalize text.toList) = .ok (verb :: word :: rest) := by
  have merged : mergeCompounds (verb :: word :: rest) = verb :: word :: rest :=
    JoinKeywords.mergeCompounds_endless
      (forall_statement begins expected (by decide) (fun _ _ => ⟨rfl, rfl⟩) (by decide))
  have ended : dropTerminators (verb :: word :: rest) = verb :: word :: rest := by
    have none : ∀ lexeme ∈ verb :: word :: rest, lexeme.isPunctuation ";" = false :=
      forall_statement begins expected (by decide) (fun _ _ => rfl) (by decide)
    refine WrittenBody.dropTerminators_eq ?_
    rw [Option.any_eq_false]
    exact fun last found => by simp [none last (List.mem_of_getLast? found)]
  obtain ⟨normal, items⟩ := reads
  rw [normal, Lexeme.ofText]
  cases read : Lexer.items text.toList with
  | error stop => rw [read] at items; cases items
  | ok found =>
    rw [read] at items
    have whole : ofItems found = verb :: word :: rest := Except.ok.inj items
    simp only [Except.map, whole, reclassifyAll_statement begins expected, merged, ended]

theorem exists_reading_statement {limits : Limits}
    (reads : ReadsAs false text.toList (verb :: word :: rest)) {bound : Nat}
    (shallow : Selections.Shallow (sides (verb :: word :: rest)) bound) (deep : bound ≤ limits.maxNestingDepth)
    (few : (verb :: word :: rest).length ≤ limits.maxTokens) :
    ∃ sequence, Reading limits text (verb :: word :: rest) sequence := by
  obtain ⟨sequence, annotated⟩ := Selections.annotate_of_shallow shallow deep
  exact ⟨sequence, tokenize_ok_iff.mpr ⟨_, ofText_statement begins expected reads, few, annotated⟩, annotated⟩

end Lexemes

end QueryFacts.Proofs.TickedStatements

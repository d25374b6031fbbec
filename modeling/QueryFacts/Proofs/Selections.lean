import QueryFacts.Proofs.ColumnListStatement

/-! Statements that select columns from a table, from two tables that are joined, or from
such a statement in parentheses: their text, and the lexemes that it is read as. -/

namespace QueryFacts
open Text

/-- The name that an item of a select list is given. -/
structure Label where
  name : String
  /-- It stands after `AS`. -/
  marked : Bool

/-- An item of a select list: a column, perhaps of a table, and perhaps under another name. -/
structure Projection where
  qualifier : Option String := none
  column : String
  label : Option Label := none

namespace Projection

/-- The column as it is written. -/
def spelled (item : Projection) : String :=
  match item.qualifier with
  | some qualifier => qualify qualifier item.column
  | none => item.column

/-- The name under which the column is selected. -/
def exposed (item : Projection) : String := (item.label.map (·.name)).getD item.column

def text (item : Projection) : String :=
  match item.label with
  | some ⟨name, marked⟩ => item.spelled ++ (if marked then " AS " else " ") ++ name
  | none => item.spelled

end Projection

inductive Selection where
  | table (item : Projection) (more : List Projection) (name : String)
  /-- Two tables joined on a column that both of them have. -/
  | join (item : Projection) (more : List Projection) (first second key : String)
  | nested (item : Projection) (more : List Projection) (inner : Selection) (name : String)

namespace Selection

def text : Selection → String
  | table item more name =>
    "SELECT " ++ String.intercalate ", " ((item :: more).map Projection.text) ++ " FROM " ++ name
  | join item more first second key =>
    "SELECT " ++ String.intercalate ", " ((item :: more).map Projection.text) ++ " FROM " ++ first ++ " JOIN " ++ second
      ++ " ON " ++ qualify first key ++ " = " ++ qualify second key
  | nested item more inner name =>
    "SELECT " ++ String.intercalate ", " ((item :: more).map Projection.text) ++ " FROM (" ++ inner.text ++ ") " ++ name

theorem text_table (item : Projection) (more : List Projection) (name : String) : (table item more name).text =
    "SELECT " ++ String.intercalate ", " ((item :: more).map Projection.text) ++ " FROM " ++ name := rfl

theorem text_join (item : Projection) (more : List Projection) (first second key : String) :
    (join item more first second key).text =
      "SELECT " ++ String.intercalate ", " ((item :: more).map Projection.text) ++ " FROM " ++
        first ++ " JOIN " ++ second
        ++ " ON " ++ qualify first key ++ " = " ++ qualify second key := rfl

theorem text_nested (item : Projection) (more : List Projection) (inner : Selection) (name : String) :
    (nested item more inner name).text =
      "SELECT " ++ String.intercalate ", " ((item :: more).map Projection.text) ++ " FROM (" ++
        inner.text ++ ") " ++ name := rfl

/-- How many statements are nested in it. -/
def depth : Selection → Nat
  | table .. => 0
  | join .. => 0
  | nested _ _ inner _ => inner.depth + 1

end Selection

/-- All names in an item are names of columns. -/
structure Projection.Known (item : Projection) : Prop where
  qualifier : ∀ name ∈ item.qualifier, IsColumnName name
  column : IsColumnName item.column
  label : ∀ label ∈ item.label, IsColumnName label.name

/-- So are all names in a statement. -/
def Selection.Known : Selection → Prop
  | .table item more name => (∀ other ∈ item :: more, other.Known) ∧ IsColumnName name
  | .join item more first second key =>
    (∀ other ∈ item :: more, other.Known) ∧ IsColumnName first ∧ IsColumnName second ∧ IsColumnName key
  | .nested item more inner name => (∀ other ∈ item :: more, other.Known) ∧ inner.Known ∧ IsColumnName name

namespace Lexeme

def dot : Lexeme := ⟨.dot, ".", none, false⟩

def equals : Lexeme := ⟨.operator, "=", none, true⟩

/-- Next to each other, two lexemes are read as they are and written as they were read. -/
def Adjacent (first next : Lexeme) : Prop := Beside first next ∧ Proofs.SelectList.Spaced first next

end Lexeme

end QueryFacts

namespace QueryFacts.Proofs.Selections
open Text Lexeme PlainText SelectList ColumnListStatement

def columnLexemes : Option String → String → List Lexeme
  | some qualifier, column => [ofName qualifier true, dot, ofName column false]
  | none, column => [ofName column true]

def labelLexemes : Option Label → List Lexeme
  | some ⟨name, true⟩ => [ofKeyword "AS" true, ofName name true]
  | some ⟨name, false⟩ => [ofName name true]
  | none => []

def projectionLexemes (item : Projection) : List Lexeme :=
  columnLexemes item.qualifier item.column ++ labelLexemes item.label

def listLexemes (item : Projection) (more : List Projection) : List Lexeme :=
  projectionLexemes item ++ more.flatMap fun other => comma :: projectionLexemes other

/-- The condition of a join. -/
def conditionLexemes (first second key : String) : List Lexeme :=
  [ofName first true, dot, ofName key false, equals, ofName second true, dot, ofName key false]

def lexemes (apart : Bool) : Selection → List Lexeme
  | .table item more name =>
    ofKeyword "SELECT" apart :: (listLexemes item more ++ [ofKeyword "FROM" true, ofName name true])
  | .join item more first second key =>
    ofKeyword "SELECT" apart :: (listLexemes item more ++ ofKeyword "FROM" true :: ofName first true ::
      ofKeyword "JOIN" true :: ofName second true :: ofKeyword "ON" true :: conditionLexemes first second key)
  | .nested item more inner name =>
    ofKeyword "SELECT" apart :: (listLexemes item more ++ ofKeyword "FROM" true :: opening ::
      (lexemes false inner ++ [closing, ofName name true]))

/-- The lexemes of these statements. -/
inductive Usual : Lexeme → Prop where
  | name {name : String} (known : IsColumnName name) (apart : Bool) : Usual (ofName name apart)
  | keyword {word : String} (known : word ∈ ["SELECT", "FROM", "WITH", "AS", "JOIN", "ON"]) (apart : Bool) :
      Usual (ofKeyword word apart)
  | dot : Usual dot
  | comma : Usual comma
  | equals : Usual equals
  | opening : Usual opening
  | closing : Usual closing

section Usual

theorem usual_projection {item : Projection} (known : item.Known) :
    ∀ lexeme ∈ projectionLexemes item, Usual lexeme := by
  obtain ⟨qualifier, column, label⟩ := item
  obtain ⟨knownQualifier, knownColumn, knownLabel⟩ := known
  intro lexeme member
  rcases List.mem_append.mp member with spelled | labelled
  · cases qualifier with
    | none =>
      obtain rfl := List.mem_singleton.mp spelled
      exact .name knownColumn true
    | some qualifier =>
      simp only [columnLexemes, List.mem_cons, List.not_mem_nil, or_false] at spelled
      rcases spelled with rfl | rfl | rfl
      · exact .name (knownQualifier qualifier rfl) true
      · exact .dot
      · exact .name knownColumn false
  · rcases label with _ | ⟨name, _ | _⟩
    · cases labelled
    · obtain rfl := List.mem_singleton.mp labelled
      exact .name (knownLabel _ rfl) true
    · simp only [labelLexemes, List.mem_cons, List.not_mem_nil, or_false] at labelled
      rcases labelled with rfl | rfl
      · exact .keyword (by decide) true
      · exact .name (knownLabel _ rfl) true

theorem usual_list {item : Projection} {more : List Projection} (known : ∀ other ∈ item :: more, other.Known) :
    ∀ lexeme ∈ listLexemes item more, Usual lexeme := by
  intro lexeme member
  rcases List.mem_append.mp member with first | later
  · exact usual_projection (known item List.mem_cons_self) lexeme first
  · obtain ⟨other, inside, here⟩ := List.mem_flatMap.mp later
    rcases List.mem_cons.mp here with rfl | here
    · exact .comma
    · exact usual_projection (known other (List.mem_cons_of_mem _ inside)) lexeme here

theorem usual_condition {first second key : String} (knownFirst : IsColumnName first)
    (knownSecond : IsColumnName second)
    (knownKey : IsColumnName key) : ∀ lexeme ∈ conditionLexemes first second key, Usual lexeme := by
  intro lexeme member
  simp only [conditionLexemes, List.mem_cons, List.not_mem_nil, or_false] at member
  rcases member with rfl | rfl | rfl | rfl | rfl | rfl | rfl
  · exact .name knownFirst true
  · exact .dot
  · exact .name knownKey false
  · exact .equals
  · exact .name knownSecond true
  · exact .dot
  · exact .name knownKey false

theorem usual_lexemes {selection : Selection} (known : selection.Known) (apart : Bool) :
    ∀ lexeme ∈ lexemes apart selection, Usual lexeme := by
  induction selection generalizing apart with
  | table item more name =>
    obtain ⟨knownItems, knownName⟩ := known
    intro lexeme member
    simp only [lexemes, List.mem_cons, List.mem_append, List.not_mem_nil, or_false] at member
    rcases member with rfl | listed | rfl | rfl
    · exact .keyword (by decide) apart
    · exact usual_list knownItems lexeme listed
    · exact .keyword (by decide) true
    · exact .name knownName true
  | join item more first second key =>
    obtain ⟨knownItems, knownFirst, knownSecond, knownKey⟩ := known
    intro lexeme member
    simp only [lexemes, List.mem_cons, List.mem_append] at member
    rcases member with rfl | listed | rfl | rfl | rfl | rfl | rfl | joined
    · exact .keyword (by decide) apart
    · exact usual_list knownItems lexeme listed
    · exact .keyword (by decide) true
    · exact .name knownFirst true
    · exact .keyword (by decide) true
    · exact .name knownSecond true
    · exact .keyword (by decide) true
    · exact usual_condition knownFirst knownSecond knownKey lexeme joined
  | nested item more inner name ih =>
    obtain ⟨knownItems, knownInner, knownName⟩ := known
    intro lexeme member
    simp only [lexemes, List.mem_cons, List.mem_append, List.not_mem_nil, or_false] at member
    rcases member with rfl | listed | rfl | rfl | inside | rfl | rfl
    · exact .keyword (by decide) apart
    · exact usual_list knownItems lexeme listed
    · exact .keyword (by decide) true
    · exact .opening
    · exact ih knownInner false lexeme inside
    · exact .closing
    · exact .name knownName true

theorem plain_of_usual {lexeme : Lexeme} (usual : Usual lexeme) : lexeme.Plain := by
  cases usual with
  | name known apart => exact plain_ofName known apart
  | keyword known apart =>
    simp only [List.mem_cons, List.not_mem_nil, or_false] at known
    rcases known with rfl | rfl | rfl | rfl | rfl | rfl <;> exact plain_keyword (by decide) (by decide) apart
  | dot => exact .dot
  | comma => exact .mark (.inr (.inr rfl))
  | equals => exact .operator (.inr (.inr (.inr rfl)))
  | opening => exact .mark (.inl rfl)
  | closing => exact .mark (.inr (.inl rfl))

theorem unquoted_of_usual {lexeme : Lexeme} (usual : Usual lexeme) : lexeme.quote = none ∧ lexeme.kind ≠ .literal := by
  cases usual <;> exact ⟨rfl, nofun⟩

end Usual

section Adjacent

theorem value_of_name {name : String} (known : IsColumnName name) :
    name ≠ "(" ∧ name ≠ ")" ∧ name ≠ "," ∧ name ≠ "::" ∧ name ≠ "*" := by
  refine ⟨?_, ?_, ?_, ?_, ?_⟩
  all_goals
    rintro rfl
    exact absurd known.spelled (by decide)

/-- A name may follow. -/
def Takes (before : Lexeme) : Prop := before.kind ≠ .dot ∧ before.value ≠ "("

theorem adjacent_name {before : Lexeme} {name : String} (takes : Takes before) (known : IsColumnName name) :
    Adjacent before (ofName name true) :=
  ⟨name_beside before name rfl, fun _ =>
    ⟨takes.1, takes.2, nofun, (value_of_name known).2.1, (value_of_name known).2.2.1⟩⟩

theorem takes_name {name : String} (known : IsColumnName name) (apart : Bool) : Takes (ofName name apart) :=
  ⟨nofun, (value_of_name known).1⟩

theorem takes_keyword {word : String} (known : word ∈ ["SELECT", "FROM", "WITH", "AS", "JOIN", "ON"]) (apart : Bool) :
    Takes (ofKeyword word apart) := by
  refine ⟨nofun, ?_⟩
  rintro rfl
  exact absurd known (by decide)

/-- What may come after a name: a keyword or an operator with a space, or a mark without one. -/
theorem name_adjacent {name : String} {apart : Bool} {next : Lexeme} (known : IsColumnName name)
    (follows : next = ofKeyword next.value true ∧ next.value ∈ ["SELECT", "FROM", "WITH", "AS", "JOIN", "ON"] ∨
      next = dot ∨ next = comma ∨ next = equals ∨ next = closing) : Adjacent (ofName name apart) next := by
  rcases follows with ⟨same, word⟩ | rfl | rfl | rfl | rfl
  · rw [same]
    refine ⟨beside_ofName.mpr ⟨rfl, nofun⟩, fun _ => ⟨nofun, (value_of_name known).1, nofun, ?_, ?_⟩⟩
    · intro value
      rw [show next.value = ")" from value] at word
      exact absurd word (by decide)
    · intro value
      rw [show next.value = "," from value] at word
      exact absurd word (by decide)
  · exact ⟨beside_ofName.mpr ⟨rfl, nofun⟩, nofun⟩
  · exact ⟨beside_ofName.mpr ⟨rfl, nofun⟩, nofun⟩
  · exact ⟨beside_ofName.mpr ⟨rfl, nofun⟩, fun _ => ⟨nofun, (value_of_name known).1, nofun, by decide, by decide⟩⟩
  · exact ⟨beside_ofName.mpr ⟨rfl, nofun⟩, nofun⟩

theorem dot_adjacent (name : String) : Adjacent dot (ofName name false) := ⟨name_beside dot name rfl, nofun⟩

theorem opening_adjacent : Adjacent opening (ofKeyword "SELECT" false) := ⟨by unfold Beside; decide, nofun⟩

theorem adjacent_opening {word : String} (known : word = "FROM" ∨ word = "AS") :
    Adjacent (ofKeyword word true) opening := by
  rcases known with rfl | rfl
  · exact ⟨by unfold Beside; decide, fun _ => by decide⟩
  · exact ⟨by unfold Beside; decide, fun _ => by decide⟩

variable {rest : List Lexeme} {before : Lexeme}

/-- Whatever name comes last, the rest may follow it. -/
def AfterName (rest : List Lexeme) : Prop :=
  ∀ name apart, IsColumnName name → (ofName name apart :: rest).IsChain Adjacent

theorem afterName_cons {next : Lexeme} (follows : next = ofKeyword next.value true ∧
    next.value ∈ ["SELECT", "FROM", "WITH", "AS", "JOIN", "ON"] ∨ next = dot ∨ next = comma ∨
      next = equals ∨ next = closing)
    (chain : (next :: rest).IsChain Adjacent) : AfterName (next :: rest) := fun _ _ known =>
  List.isChain_cons_cons.mpr ⟨name_adjacent known follows, chain⟩

theorem chain_name {name : String} (known : IsColumnName name) (takes : Takes before) (after : AfterName rest) :
    (before :: ofName name true :: rest).IsChain Adjacent :=
  List.isChain_cons_cons.mpr ⟨adjacent_name takes known, after name true known⟩

theorem chain_qualified {qualifier column : String} (knownQualifier : IsColumnName qualifier)
    (known : IsColumnName column)
    (takes : Takes before) (after : AfterName rest) :
    (before :: ofName qualifier true :: dot :: ofName column false :: rest).IsChain Adjacent :=
  chain_name knownQualifier takes (afterName_cons (.inr (.inl rfl))
    (List.isChain_cons_cons.mpr ⟨dot_adjacent column, after column false known⟩))

theorem chain_projection {item : Projection} (known : item.Known) (takes : Takes before) (after : AfterName rest) :
    (before :: (projectionLexemes item ++ rest)).IsChain Adjacent := by
  obtain ⟨qualifier, column, label⟩ := item
  obtain ⟨knownQualifier, knownColumn, knownLabel⟩ := known
  have labelled : AfterName (labelLexemes label ++ rest) := by
    rcases label with _ | ⟨name, _ | _⟩
    · exact after
    · exact fun other apart knownOther => chain_name (knownLabel _ rfl) (takes_name knownOther apart) after
    · exact afterName_cons
        (.inl ⟨rfl, by decide⟩) (chain_name (knownLabel _ rfl) (takes_keyword (by decide) true) after)
  rw [projectionLexemes, List.append_assoc]
  cases qualifier with
  | none => exact chain_name knownColumn takes labelled
  | some qualifier => exact chain_qualified (knownQualifier qualifier rfl) knownColumn takes labelled

theorem chain_list {item : Projection} {more : List Projection} (known : ∀ other ∈ item :: more, other.Known)
    (takes : Takes before) (after : AfterName rest) : (before :: (listLexemes item more ++ rest)).IsChain Adjacent := by
  have later (more : List Projection) (known : ∀ other ∈ more, other.Known) :
      AfterName ((more.flatMap fun other => comma :: projectionLexemes other) ++ rest) := by
    induction more with
    | nil => exact after
    | cons other more ih =>
      have next := ih fun item member => known item (List.mem_cons_of_mem _ member)
      rw [List.flatMap_cons, List.cons_append, List.cons_append, List.append_assoc]
      exact afterName_cons (.inr (.inr (.inl rfl)))
        (chain_projection (known other List.mem_cons_self) ⟨nofun, by decide⟩ next)
  rw [listLexemes, List.append_assoc]
  exact chain_projection (known item List.mem_cons_self) takes (later more fun other member =>
    known other (List.mem_cons_of_mem _ member))

/-- The statement, with anything after it that may follow a name. -/
theorem chain_lexemes {selection : Selection} (known : selection.Known) (apart : Bool) (after : AfterName rest) :
    (lexemes apart selection ++ rest).IsChain Adjacent := by
  induction selection generalizing apart rest with
  | table item more name =>
    obtain ⟨knownItems, knownName⟩ := known
    rw [lexemes, List.cons_append, List.append_assoc]
    exact chain_list knownItems (takes_keyword (by decide) apart) (afterName_cons (.inl ⟨rfl, by decide⟩)
      (chain_name knownName (takes_keyword (by decide) true) after))
  | join item more first second key =>
    obtain ⟨knownItems, knownFirst, knownSecond, knownKey⟩ := known
    have condition : (ofKeyword "ON" true :: (conditionLexemes first second key ++ rest)).IsChain Adjacent :=
      chain_qualified knownFirst knownKey (takes_keyword (by decide) true)
        (afterName_cons (.inr (.inr (.inr (.inl rfl))))
        (chain_qualified knownSecond knownKey ⟨nofun, by decide⟩ after))
    rw [lexemes, List.cons_append, List.append_assoc]
    exact chain_list knownItems (takes_keyword (by decide) apart) (afterName_cons (.inl ⟨rfl, by decide⟩)
      (chain_name knownFirst (takes_keyword (by decide) true) (afterName_cons (.inl ⟨rfl, by decide⟩)
        (chain_name knownSecond (takes_keyword (by decide) true) (afterName_cons (.inl ⟨rfl, by decide⟩) condition)))))
  | nested item more inner name ih =>
    obtain ⟨knownItems, knownInner, knownName⟩ := known
    have closed : AfterName (closing :: ofName name true :: rest) :=
      afterName_cons (.inr (.inr (.inr (.inr rfl)))) (chain_name knownName ⟨nofun, by decide⟩ after)
    have body : (lexemes false inner ++ (closing :: ofName name true :: rest)).IsChain Adjacent :=
      ih knownInner false closed
    have entered : (opening :: (lexemes false inner ++ (closing :: ofName name true :: rest))).IsChain Adjacent := by
      cases inner <;> exact List.isChain_cons_cons.mpr ⟨opening_adjacent, body⟩
    rw [lexemes, List.cons_append, List.append_assoc, List.cons_append, List.cons_append, List.append_assoc]
    exact chain_list knownItems (takes_keyword (by decide) apart) (afterName_cons (.inl ⟨rfl, by decide⟩)
      (List.isChain_cons_cons.mpr ⟨adjacent_opening (.inl rfl), entered⟩))

end Adjacent

section Text

theorem spell_projection (item : Projection) : spell (projectionLexemes item) = ' ' :: item.text.toList := by
  obtain ⟨qualifier, column, label⟩ := item
  have spelled :
      spell (columnLexemes qualifier column) = ' ' :: (Projection.spelled ⟨qualifier, column, label⟩).toList := by
    cases qualifier <;> simp [columnLexemes, spell, ofName, dot, Projection.spelled, qualify]
  rw [projectionLexemes, spell_append, spelled]
  rcases label with _ | ⟨name, _ | _⟩ <;> simp [labelLexemes, spell, ofName, ofKeyword, Projection.text]

theorem spell_list (item : Projection) (more : List Projection) : spell (listLexemes item more) =
    ' ' :: (String.intercalate ", " ((item :: more).map Projection.text)).toList := by
  have later : spell (more.flatMap fun other => comma :: projectionLexemes other) =
      (more.map (·.text.toList)).flatMap (", ".toList ++ ·) := by
    induction more with
    | nil => rfl
    | cons other more ih =>
      rw [List.flatMap_cons, spell_append, ih, spell, spell_projection]
      simp [comma]
  rw [listLexemes, spell_append, spell_projection, later, String.toList_intercalate, List.map_cons, List.map_cons,
    intercalate_cons, List.map_map]
  rfl

/-- The statement is written as its text. -/
theorem spell_lexemes (selection : Selection) (apart : Bool) :
    spell (lexemes apart selection) = (if apart then [' '] else []) ++ selection.text.toList := by
  induction selection generalizing apart with
  | table item more name =>
    rw [lexemes, spell, spell_append, spell_list]
    cases apart <;> simp [spell, ofKeyword, ofName, Selection.text_table]
  | join item more first second key =>
    rw [lexemes, spell, spell_append, spell_list]
    cases apart <;> simp [spell, ofKeyword, ofName, dot, equals, conditionLexemes, Selection.text_join, qualify]
  | nested item more inner name ih =>
    rw [lexemes, spell, spell_append, spell_list, spell, spell, spell_append, ih]
    cases apart <;> simp [spell, ofKeyword, ofName, opening, closing, Selection.text_nested]

theorem head_lexemes (selection : Selection) (apart : Bool) :
    ∃ rest, lexemes apart selection = ofKeyword "SELECT" apart :: rest := by
  cases selection <;> exact ⟨_, rfl⟩

theorem written_lexemes (selection : Selection) (apart : Bool) :
    written (lexemes apart selection) = selection.text.toList := by
  have same (apart : Bool) : written (lexemes apart selection) = written (lexemes false selection) := by
    cases selection <;> rfl
  have whole := spell_lexemes selection false
  obtain ⟨rest, starts⟩ := head_lexemes selection false
  rw [same, starts, written]
  rw [starts, spell] at whole
  exact whole

/-- Lexemes that may stand next to each other are written as they were read. -/
theorem writeAfter_adjacent {tokens : List Token}
    (unquoted : ∀ token ∈ tokens, token.quote = none ∧ token.kind ≠ .literal)
    (adjacent : (tokens.map lexemeOf).IsChain Adjacent) :
    Token.writeAfter none tokens = written (tokens.map lexemeOf) := by
  cases tokens with
  | nil => rfl
  | cons token rest =>
    have spaced : ((token :: rest).map lexemeOf).IsChain SelectList.Spaced := adjacent.imp fun _ _ => And.right
    have source : token.display.toList = (lexemeOf token).source := by
      rw [Token.display, (unquoted token List.mem_cons_self).1, lexemeOf,
        source_mk (unquoted token List.mem_cons_self).2]
    rw [Token.writeAfter, source,
      writeAfter_spaced (fun other member => unquoted other (List.mem_cons_of_mem _ member)) spaced]
    rfl

theorem legible_of_chain {lexemes : List Lexeme} (usual : ∀ lexeme ∈ lexemes, Usual lexeme)
    (chain : lexemes.IsChain Adjacent)
    (first : ∀ lexeme ∈ lexemes.head?, lexeme.spaceBefore = true ∧ lexeme.kind ≠ .operator) :
    Legible lexemes where
  plain lexeme member := plain_of_usual (usual lexeme member)
  beside := chain.imp fun _ _ adjacent => adjacent.1
  first := first

end Text

end QueryFacts.Proofs.Selections

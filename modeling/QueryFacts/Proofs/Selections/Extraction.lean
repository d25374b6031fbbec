import QueryFacts.Proofs.Selections.Signs

/-! What is extracted from statements that select columns, said of them as parts of any
statement: the columns they mention, their tables, and the statements nested in them. -/

namespace QueryFacts
open Text

namespace Projection

/-- The mention of its column. -/
def mention (aliasNames : List String) (item : Projection) : Column.Mention :=
  if item.qualifier = none ∧ item.column ∈ aliasNames then
    .aliasName item.column .select else .column item.spelled .select

end Projection

namespace Selection

/-- The mentions of columns in the order of the text. -/
def mentions (aliasNames : List String) : Selection → List Column.Mention
  | table item more _ => (item :: more).map (Projection.mention aliasNames)
  | join item more first second key =>
    (item :: more).map (Projection.mention aliasNames) ++
      [.column (qualify first key) .join, .column (qualify second key) .join]
  | nested item more inner _ => (item :: more).map (Projection.mention aliasNames) ++ inner.mentions aliasNames

def tables : Selection → List String
  | table _ _ name => [name]
  | join _ _ first second _ => [first, second]
  | nested _ _ inner _ => inner.tables

/-- The items of all select lists in the order of the text. -/
def items : Selection → List Projection
  | table item more _ => item :: more
  | join item more .. => item :: more
  | nested item more inner _ => item :: more ++ inner.items

/-- The statements nested in it and their names, inner ones first. -/
def bodies : Selection → List (String × Selection)
  | table .. => []
  | join .. => []
  | nested _ _ inner name => inner.bodies ++ [(name, inner)]

end Selection

end QueryFacts

namespace QueryFacts.Proofs.Selections
open Text Lexeme SelectList ColumnListStatement

section Pieces

variable {α : Type} {ofPlace : Place → Option α}

theorem filterMap_among {all rest : List Sign}
    (nothing : ∀ place, Places.Among all place → place.here ∈ rest → ofPlace place = none) {before after : List Sign}
    (whole : all = before.reverse ++ (rest ++ after)) : (places before rest after).filterMap ofPlace = [] := by
  induction rest generalizing before with
  | nil => rfl
  | cons here rest ih =>
    have among : Places.Among all ⟨before, here, rest ++ after⟩ := whole
    rw [places, List.filterMap_cons_none (nothing _ among List.mem_cons_self)]
    exact ih (fun place among member => nothing place among (List.mem_cons_of_mem _ member)) (by rw [whole]; simp)

theorem filterMap_none {rest : List Sign}
    (nothing : ∀ sign ∈ rest, ∀ before after, ofPlace ⟨before, sign, after⟩ = none)
    (before after : List Sign) : (places before rest after).filterMap ofPlace = [] :=
  filterMap_among (fun place _ member => nothing place.here member place.before place.after)
    (show before.reverse ++ (rest ++ after) = _ from rfl)

/-- A name after it may stand for a column. -/
structure Precedes (sign : Sign) : Prop where
  isName : sign.isName = false
  noAs : sign.isWord "AS" = false
  closes : sign.closes = false

/-- So may a name in front of it. -/
structure Follows (sign : Sign) : Prop where
  isDot : sign.isDot = false
  opens : sign.opens = false

/-- After it an item of a select list begins. -/
structure Begins (sign : Sign) : Prop extends Precedes sign where
  isDot : sign.isDot = false

/-- After it an item of a select list begins, and none before. -/
structure Starts (sign : Sign) : Prop extends Begins sign where
  separates : sign.separates = true

/-- Before it an item of a select list ends. -/
structure Ends (sign : Sign) : Prop extends Follows sign where
  ends : (sign.isComma || sign.isWord "FROM") = true

section Marks

variable (around : Option ParenRole)

theorem starts_comma : Starts (flatSign "SELECT" around comma) := ⟨⟨⟨rfl, rfl, rfl⟩, rfl⟩, rfl⟩

theorem starts_head (outer : Option String) (outside apart : Bool) : Starts (headSign outer around outside apart) := by
  have word : (headSign outer around outside apart).normalized = "SELECT" := normalForm_select
  refine ⟨⟨⟨rfl, ?_, rfl⟩, rfl⟩, ?_⟩
  · rw [Sign.isWord, word]
    rfl
  · rw [Sign.separates, word]
    rfl

theorem ends_comma : Ends (flatSign "SELECT" around comma) := ⟨⟨rfl, rfl⟩, rfl⟩

theorem ends_from : Ends (flatSign "SELECT" around (ofKeyword "FROM" true)) := by
  refine ⟨⟨rfl, rfl⟩, ?_⟩
  rw [Sign.isWord, show (flatSign "SELECT" around (ofKeyword "FROM" true)).normalized = "FROM" from normalForm_from]
  rfl

end Marks

variable {around : Option ParenRole}

/-- What the places of each item say, those of a select list say. -/
theorem filterMap_list {ofItem : Projection → List α} {item : Projection} {more : List Projection}
    (each : ∀ other ∈ item :: more, ∀ begin front close rest, Starts begin → Ends close →
      (places (begin :: front) ((projectionLexemes other).map (flatSign "SELECT" around))
        (close :: rest)).filterMap ofPlace =
        ofItem other)
    (between : ∀ before after, ofPlace ⟨before, flatSign "SELECT" around comma, after⟩ = none)
    {begin close : Sign} (starts : Starts begin) (ends : Ends close) (front rest : List Sign) :
    (places (begin :: front) ((listLexemes item more).map (flatSign "SELECT" around))
      (close :: rest)).filterMap ofPlace =
      (item :: more).flatMap ofItem := by
  induction more generalizing item begin front with
  | nil =>
    rw [listLexemes, List.flatMap_nil, List.append_nil, each item List.mem_cons_self begin front close rest starts ends,
      List.flatMap_singleton]
  | cons next more ih =>
    have later := ih (fun other member => each other (List.mem_cons_of_mem _ member)) (starts_comma around)
      (((projectionLexemes item).map (flatSign "SELECT" around)).reverse ++ begin :: front)
    have parts : (listLexemes item (next :: more)).map (flatSign "SELECT" around) =
        (projectionLexemes item).map (flatSign "SELECT" around) ++
          flatSign "SELECT" around comma :: (listLexemes next more).map (flatSign "SELECT" around) := by
      simp [listLexemes]
    rw [parts, places_append, List.filterMap_append, places, List.filterMap_cons_none (between _ _),
      later, List.cons_append, each item List.mem_cons_self begin front _ _ starts (ends_comma around)]
    exact List.flatMap_cons.symm

/-- Up to the source, only the select list says anything. -/
theorem filterMap_start
    (unnamed : ∀ place : Place, place.here.isName = false → place.here.paren = none → ofPlace place = none)
    (outer : Option String) (outside apart : Bool) (item : Projection) (more : List Projection)
    (before rest after : List Sign) :
    let head := headSign outer around outside apart
    let list := (listLexemes item more).map (flatSign "SELECT" around)
    let source := flatSign "SELECT" around (ofKeyword "FROM" true)
    (places before (head :: (list ++ source :: rest)) after).filterMap ofPlace =
      (places (head :: before) list (source :: (rest ++ after))).filterMap ofPlace ++
        (places (source :: (list.reverse ++ head :: before)) rest after).filterMap ofPlace := by
  intro head list source
  rw [places, List.filterMap_cons_none (unnamed _ rfl rfl), places_append, List.filterMap_append, places,
    List.filterMap_cons_none (unnamed _ rfl rfl)]
  rfl

theorem nameParts_of_begins {begin : Sign} (begins : Begins begin) (front : List Sign) (here : Sign) :
    Place.nameParts (begin :: front) here = [here.lexeme.value] := by
  cases front with
  | nil => rfl
  | cons other front => rw [Place.nameParts, begins.isDot, Bool.false_and, if_neg Bool.false_ne_true]

end Pieces

section Mentions

variable {aliasNames : List String} {around : Option ParenRole} {clause : String} {sec : Section}

/-- A name in a place for columns that is neither part of a longer name nor declared here. -/
theorem mention?_column (columns : Keyword.precedesColumns clause = true) (told : Section.ofKeyword? clause = some sec)
    {place : Place} {name : String} {apart : Bool} (here : place.here = flatSign clause around (ofName name apart))
    (before : ∀ sign ∈ place.previous, Precedes sign) (after : ∀ sign ∈ place.next, Follows sign) :
    place.mention? aliasNames =
        some (if place.dottedName.toList.contains '.' = false ∧ place.dottedName ∈ aliasNames then
      .aliasName place.dottedName sec else .column place.dottedName sec) := by
  have next : place.next.any Sign.isDot = false ∧ place.next.any Sign.opens = false := by
    cases found : place.next with
    | none => exact ⟨rfl, rfl⟩
    | some sign => exact ⟨(after sign found).isDot, (after sign found).opens⟩
  have previous : place.previous.any Sign.isName = false ∧ place.previous.any (Sign.isWord "AS") = false ∧
      place.previous.any Sign.closes = false := by
    cases found : place.previous with
    | none => exact ⟨rfl, rfl, rfl⟩
    | some sign => exact ⟨(before sign found).isName, (before sign found).noAs, (before sign found).closes⟩
  have word : place.clause = clause := by rw [Place.clause, here]; rfl
  have isName : place.here.isName = true := by rw [here]; rfl
  have column : place.isColumn = true := by
    rw [Place.isColumn, isName, word, columns, next.1, next.2, previous.2.1, previous.2.2]
    rfl
  have undeclared : place.declares = false := by
    rw [Place.declares, previous.1, previous.2.1, Bool.and_false, Bool.or_self, Bool.and_false]
  rw [Place.mention?, column, undeclared, word, told]
  simp

theorem dottedName_qualified {qualifier column : String} {apart : Bool} {begin : Sign} (begins : Begins begin)
    (front after : List Sign) :
    Place.dottedName ⟨flatSign clause around dot :: flatSign clause around (ofName qualifier apart) ::
      begin :: front, flatSign clause around (ofName column false), after⟩ = qualify qualifier column := by
  rw [Place.dottedName, Place.nameParts, if_pos (by rfl), nameParts_of_begins begins]
  rfl

theorem mentions_qualified (columns : Keyword.precedesColumns clause = true)
    (told : Section.ofKeyword? clause = some sec)
    (qualifier column : String) {begin : Sign} (begins : Begins begin) (front : List Sign) {after : List Sign}
    (follows : ∀ sign ∈ after.head?, Follows sign) :
    (places (begin :: front) ((columnLexemes (some qualifier) column).map (flatSign clause around)) after).filterMap
      (Place.mention? aliasNames) = [.column (qualify qualifier column) sec] := by
  let name := flatSign clause around (ofName qualifier true)
  let mark := flatSign clause around dot
  let place : Place := ⟨mark :: name :: begin :: front, flatSign clause around (ofName column false), after⟩
  have dotted : place.dottedName = qualify qualifier column := dottedName_qualified begins front after
  have last : place.mention? aliasNames = _ :=
    mention?_column columns told rfl (fun sign same => by cases same; exact ⟨rfl, rfl, rfl⟩) follows
  have first : Place.mention? aliasNames ⟨begin :: front, name, mark :: place.here :: after⟩ = none := by
    simp [Place.mention?, Place.isColumn, Place.next, show mark.isDot = true from rfl]
  have second : Place.mention? aliasNames ⟨name :: begin :: front, mark, place.here :: after⟩ = none := by
    simp [Place.mention?, Place.isColumn, show mark.isName = false from rfl]
  have whole : places (begin :: front) ((columnLexemes (some qualifier) column).map (flatSign clause around)) after =
    [⟨begin :: front, name, mark :: place.here :: after⟩, ⟨name :: begin :: front, mark, place.here :: after⟩, place] :=
  rfl
  rw [whole, List.filterMap_cons_none first, List.filterMap_cons_none second, List.filterMap_cons_some last, dotted]
  simp [qualify]

theorem mentions_column {item : Projection} (known : item.Known) {begin : Sign}
    (begins : Begins begin) (front : List Sign)
    {after : List Sign} (follows : ∀ sign ∈ after.head?, Follows sign) :
    (places (begin :: front)
      ((columnLexemes item.qualifier item.column).map (flatSign "SELECT" around)) after).filterMap
      (Place.mention? aliasNames) = [item.mention aliasNames] := by
  cases qualified : item.qualifier with
  | none =>
    let place : Place := ⟨begin :: front, flatSign "SELECT" around (ofName item.column true), after⟩
    have dotted : place.dottedName = item.column := by
      rw [Place.dottedName, nameParts_of_begins begins]
      rfl
    have told : place.mention? aliasNames = _ :=
      mention?_column (by decide) rfl rfl (fun sign same => by cases same; exact begins.toPrecedes) follows
    have whole :
        places (begin :: front) ((columnLexemes none item.column).map (flatSign "SELECT" around)) after = [place] := rfl
    rw [whole, List.filterMap_cons_some told, dotted]
    simp [Projection.mention, qualified, bare_of_column known.column, Projection.spelled]
  | some qualifier =>
    rw [mentions_qualified (by decide) rfl qualifier item.column begins front follows]
    simp [Projection.mention, qualified, Projection.spelled]

/-- A name at the end of an item, after a name or `AS`. -/
theorem declares_label {place : Place} {name : String} {apart : Bool}
    (here : place.here = flatSign "SELECT" around (ofName name apart))
    (before : ∃ sign, place.previous = some sign ∧ (sign.isWord "AS" || sign.isName) = true)
    (after : ∃ sign, place.next = some sign ∧ Ends sign) : place.declares = true := by
  obtain ⟨previous, found, labels⟩ := before
  obtain ⟨next, follows, ends⟩ := after
  have clause : place.clause = "SELECT" := by rw [Place.clause, here]; rfl
  have isName : place.here.isName = true := by rw [here]; rfl
  have last : place.endsItem = true := by
    have either := ends.ends
    rw [Place.endsItem, follows, Option.all_some]
    simp only [Bool.or_eq_true] at either ⊢
    exact .inl (.inl either)
  rw [Place.declares, isName, follows, found, clause, last, Option.any_some, Option.any_some,
    Option.any_some, Option.any_some, ends.isDot, ends.opens]
  exact labels

theorem mentions_label (label : Option Label) {named close : Sign} (front rest : List Sign)
    (isName : named.isName = true)
    (ends : Ends close) : (places (named :: front) ((labelLexemes label).map (flatSign "SELECT" around))
      (close :: rest)).filterMap (Place.mention? aliasNames) = [] := by
  have declared {place : Place} (declares : place.declares = true) : place.mention? aliasNames = none := by
    rw [Place.mention?, declares, Bool.not_true, Bool.and_false, if_neg Bool.false_ne_true]
  rcases label with _ | ⟨name, _ | _⟩
  · rfl
  · refine List.filterMap_cons_none (declared (declares_label rfl ⟨named, rfl, ?_⟩ ⟨close, rfl, ends⟩))
    rw [isName, Bool.or_true]
  · let as := flatSign "SELECT" around (ofKeyword "AS" true)
    have isWord : (as.isWord "AS" || as.isName) = true := by
      rw [Sign.isWord, show as.normalized = "AS" from normalForm_as]
      rfl
    exact (List.filterMap_cons_none rfl).trans
      (List.filterMap_cons_none (declared (declares_label rfl ⟨as, rfl, isWord⟩ ⟨close, rfl, ends⟩)))

theorem mentions_projection {item : Projection} (known : item.Known) {begin close : Sign} (begins : Begins begin)
    (ends : Ends close) (front rest : List Sign) : (places (begin :: front)
      ((projectionLexemes item).map (flatSign "SELECT" around)) (close :: rest)).filterMap (Place.mention? aliasNames) =
        [item.mention aliasNames] := by
  have follows :
      ∀ sign ∈ ((labelLexemes item.label).map (flatSign "SELECT" around) ++ close :: rest).head?, Follows sign := by
    rcases item.label with _ | ⟨name, _ | _⟩ <;> rintro sign ⟨⟩
    · exact ends.toFollows
    · exact ⟨rfl, rfl⟩
    · exact ⟨rfl, rfl⟩
  have named : ∃ name front', ((columnLexemes item.qualifier item.column).map (flatSign "SELECT" around)).reverse ++
      begin :: front = name :: front' ∧ name.isName = true := by
    cases item.qualifier <;> exact ⟨_, _, rfl, rfl⟩
  obtain ⟨name, front', before, isName⟩ := named
  rw [projectionLexemes, List.map_append, places_append, List.filterMap_append,
    mentions_column known begins front follows, before, mentions_label item.label front' rest isName ends]
  rfl

theorem mentions_list {item : Projection} {more : List Projection} (known : ∀ other ∈ item :: more, other.Known)
    {begin close : Sign} (starts : Starts begin) (ends : Ends close) (front rest : List Sign) : (places (begin :: front)
      ((listLexemes item more).map (flatSign "SELECT" around)) (close :: rest)).filterMap (Place.mention? aliasNames) =
        (item :: more).map (Projection.mention aliasNames) := by
  rw [filterMap_list (fun other member begin front close rest starts ends =>
    mentions_projection (known other member) starts.toBegins ends front rest) (fun _ _ => rfl) starts ends]
  exact List.map_eq_flatMap.symm

theorem mention?_unnamed {place : Place} (unnamed : place.here.isName = false) : place.mention? aliasNames = none := by
  rw [Place.mention?, Place.isColumn, unnamed]
  rfl

theorem begins_keyword {word : String} {clause : String} (noAs : Keyword.normalForm word ≠ "AS") :
    Begins (flatSign clause around (ofKeyword word true)) :=
  ⟨⟨rfl, by simpa [Sign.isWord, flatSign, ofKeyword, Lexeme.normalized] using noAs, rfl⟩, rfl⟩

theorem condition_signs (first second key : String) : (conditionLexemes first second key).map (flatSign "ON" around) =
    (columnLexemes (some first) key).map (flatSign "ON" around) ++
      flatSign "ON" around equals :: (columnLexemes (some second) key).map (flatSign "ON" around) := rfl

theorem begins_equals : Begins (flatSign "ON" around equals) := ⟨⟨rfl, rfl, rfl⟩, rfl⟩

theorem mentions_condition (first second key : String) {begin : Sign} (begins : Begins begin) (front : List Sign)
    {after : List Sign} (follows : ∀ sign ∈ after.head?, Follows sign) :
    (places (begin :: front) ((conditionLexemes first second key).map (flatSign "ON" around)) after).filterMap
      (Place.mention? aliasNames) = [.column (qualify first key) .join, .column (qualify second key) .join] := by
  have columns : Keyword.precedesColumns "ON" = true := by decide
  rw [condition_signs, places_append, List.filterMap_append,
    mentions_qualified columns rfl first key begins front, places, List.filterMap_cons_none (mention?_unnamed rfl),
    mentions_qualified columns rfl second key begins_equals _ follows]
  · rfl
  · rintro sign ⟨⟩
    exact ⟨rfl, rfl⟩

/-- The mentions of a statement in any place where a name may end. -/
theorem mentions_signs {selection : Selection} (known : selection.Known) (outer : Option String) (outside apart : Bool)
    (before : List Sign) {after : List Sign} (follows : ∀ sign ∈ after.head?, Follows sign) :
    (places before (signs outer around outside apart selection) after).filterMap (Place.mention? aliasNames) =
      selection.mentions aliasNames := by
  have table (clause : String) (noColumns : Keyword.precedesColumns clause = false) (around : Option ParenRole)
      (name : String) (before after : List Sign) :
      Place.mention? aliasNames ⟨before, flatSign clause around (ofName name true), after⟩ = none := by
    rw [Place.mention?, Place.isColumn, Place.clause]
    simp [flatSign, noColumns]
  induction selection generalizing outer around outside apart before after with
  | table item more name =>
    obtain ⟨knownItems, -⟩ := known
    rw [signs, filterMap_start fun place unnamed _ => mention?_unnamed unnamed,
      mentions_list knownItems (starts_head around outer outside apart) (ends_from around), places,
      List.filterMap_cons_none (table "FROM" (by decide) around name _ _)]
    exact List.append_nil _
  | join item more first second key =>
    obtain ⟨knownItems, -⟩ := known
    rw [signs, filterMap_start fun place unnamed _ => mention?_unnamed unnamed,
      mentions_list knownItems (starts_head around outer outside apart) (ends_from around), Selection.mentions]
    congr 1
    rw [places, List.filterMap_cons_none (table "FROM" (by decide) around first _ _), places,
      List.filterMap_cons_none (mention?_unnamed rfl), places,
      List.filterMap_cons_none (table "JOIN" (by decide) around second _ _), places,
      List.filterMap_cons_none (mention?_unnamed rfl)]
    exact mentions_condition first second key (begins_keyword (by rw [normalForm_on]; decide)) _ follows
  | nested item more inner name ih =>
    obtain ⟨knownItems, knownInner, -⟩ := known
    rw [signs, filterMap_start fun place unnamed _ => mention?_unnamed unnamed,
      mentions_list knownItems (starts_head around outer outside apart) (ends_from around), Selection.mentions]
    congr 1
    rw [places, List.filterMap_cons_none (mention?_unnamed rfl), places_append, List.filterMap_append,
      ih knownInner (some "FROM") true false _ (fun sign same => by cases same; exact ⟨rfl, rfl⟩), places,
      List.filterMap_cons_none (mention?_unnamed rfl), places,
      List.filterMap_cons_none (table "FROM" (by decide) around name _ _)]
    exact List.append_nil _

end Mentions

section Declarations

variable {α : Type} {ofPlace : Place → Option α} {around : Option ParenRole}

theorem declares_unnamed {place : Place} (unnamed : place.here.isName = false) : place.declares = false := by
  rw [Place.declares, unnamed]
  rfl

theorem declares_preceded {place : Place} {sign : Sign} (previous : place.previous = some sign)
    (precedes : Precedes sign) :
    place.declares = false := by
  rw [Place.declares, previous, Option.any_some, Option.any_some, precedes.noAs, precedes.isName]
  simp

theorem declares_elsewhere {clause : String} (noColumns : Keyword.precedesColumns clause = false) (lexeme : Lexeme)
    (before after : List Sign) : Place.declares ⟨before, flatSign clause around lexeme, after⟩ = false := by
  rw [Place.declares, Place.clause]
  simp [flatSign, noColumns]

variable (undeclared : ∀ place : Place, place.declares = false → ofPlace place = none)
include undeclared

theorem declarations_column (clause : String) (qualifier : Option String) (column : String) {begin : Sign}
    (begins : Begins begin) (front after : List Sign) :
    (places (begin :: front) ((columnLexemes qualifier column).map (flatSign clause around)) after).filterMap ofPlace =
        [] := by
  have first (sign : Sign) (after : List Sign) : ofPlace ⟨begin :: front, sign, after⟩ = none :=
    undeclared _ (declares_preceded rfl begins.toPrecedes)
  cases qualifier with
  | none => exact List.filterMap_cons_none (first _ _)
  | some qualifier =>
    have last : Precedes (flatSign clause around dot) := ⟨rfl, rfl, rfl⟩
    exact (List.filterMap_cons_none (first _ _)).trans
      ((List.filterMap_cons_none (undeclared _ (declares_unnamed rfl))).trans
      (List.filterMap_cons_none (undeclared _ (declares_preceded rfl last))))

/-- Only items of select lists declare names. -/
theorem declarations_signs {selection : Selection} {ofItem : Projection → List α}
    (each : ∀ item ∈ selection.items, ∀ around begin front close rest, Starts begin → Ends close →
      (places (begin :: front) ((projectionLexemes item).map (flatSign "SELECT" around))
        (close :: rest)).filterMap ofPlace =
        ofItem item) (outer : Option String) (outside apart : Bool) (before after : List Sign) :
    (places before (signs outer around outside apart selection) after).filterMap ofPlace =
        selection.items.flatMap ofItem := by
  have elsewhere (around : Option ParenRole) (clause : String) (noColumns : Keyword.precedesColumns clause = false)
      (lexeme : Lexeme) (before after : List Sign) : ofPlace ⟨before, flatSign clause around lexeme, after⟩ = none :=
    undeclared _ (declares_elsewhere noColumns lexeme before after)
  have between (around : Option ParenRole) (before after : List Sign) :
      ofPlace ⟨before, flatSign "SELECT" around comma, after⟩ = none := undeclared _ (declares_unnamed rfl)
  induction selection generalizing outer around outside apart before after with
  | table item more name =>
    rw [signs, filterMap_start fun place unnamed _ => undeclared _ (declares_unnamed unnamed),
      filterMap_list (fun other member => each other member around)
        (between around) (starts_head around outer outside apart)
        (ends_from around), places_singleton, List.filterMap_cons_none (elsewhere around "FROM" (by decide) _ _ _)]
    exact List.append_nil _
  | join item more first second key =>
    have on : Begins (flatSign "JOIN" around (ofKeyword "ON" true)) := begins_keyword (by rw [normalForm_on]; decide)
    rw [signs, filterMap_start fun place unnamed _ => undeclared _ (declares_unnamed unnamed),
      filterMap_list (fun other member => each other member around)
        (between around) (starts_head around outer outside apart)
        (ends_from around), places, List.filterMap_cons_none (elsewhere around "FROM" (by decide) _ _ _), places,
      List.filterMap_cons_none (elsewhere around "FROM" (by decide) _ _ _), places,
      List.filterMap_cons_none (elsewhere around "JOIN" (by decide) _ _ _), places,
      List.filterMap_cons_none (elsewhere around "JOIN" (by decide) _ _ _), condition_signs,
      places_append, List.filterMap_append, declarations_column undeclared "ON" (some first) key on, places,
      List.filterMap_cons_none (undeclared _ (declares_unnamed rfl)),
      declarations_column undeclared "ON" (some second) key begins_equals]
    exact List.append_nil _
  | nested item more inner name ih =>
    rw [signs, filterMap_start fun place unnamed _ => undeclared _ (declares_unnamed unnamed),
      filterMap_list (fun other member => each other (List.mem_append_left _ member) around) (between around)
        (starts_head around outer outside apart) (ends_from around), places,
      List.filterMap_cons_none (undeclared _ (declares_unnamed rfl)), places_append, List.filterMap_append,
      ih fun other member => each other (List.mem_append_right _ member), places,
      List.filterMap_cons_none (undeclared _ (declares_unnamed rfl)), places_singleton,
      List.filterMap_cons_none (elsewhere around "FROM" (by decide) _ _ _), List.filterMap_nil, List.append_nil]
    exact List.flatMap_append.symm

end Declarations

section Tables

variable {around : Option ParenRole}

theorem table?_unnamed {place : Place} (unnamed : place.here.isName = false) : place.table? = none := by
  rw [Place.table?, unnamed]
  rfl

theorem table?_elsewhere {clause : String} (noTables : Keyword.precedesTables clause = false) (lexeme : Lexeme)
    (before after : List Sign) : Place.table? ⟨before, flatSign clause around lexeme, after⟩ = none := by
  rw [Place.table?, Place.clause]
  simp [flatSign, noTables]

/-- A name right after the keyword of its clause is a table. -/
theorem table?_source {word clause : String} (normal : Keyword.normalForm word = word)
    (noWith : word ≠ "AS" ∧ word ≠ "WITH")
    (tables : Keyword.precedesTables word = true) (name : String) (before : List Sign) {after : List Sign}
    (follows : ∀ sign ∈ after.head?, Follows sign) :
    Place.table?
      ⟨flatSign clause around (ofKeyword word true) :: before, flatSign word around (ofName name true), after⟩ =
      some name := by
  have noDot : after.head?.any Sign.isDot = false := by
    cases found : after.head? with
    | none => rfl
    | some sign => exact (follows sign found).isDot
  let source := flatSign clause around (ofKeyword word true)
  have same : source.normalized = word := normal
  have isWord (other : String) : source.isWord other = (word == other) := by
    rw [Sign.isWord, same]
    rfl
  have kept : source.isDot = false ∧ source.closes = false := ⟨rfl, rfl⟩
  change Place.table? ⟨source :: before, _, after⟩ = _
  generalize source = source at same isWord kept
  simp [Place.table?, Place.next, Place.previous, Place.clause, noDot, isWord, kept, same, tables, noWith, Sign.isName,
    flatSign, ofName]

theorem tables_signs (selection : Selection) (outer : Option String) (outside apart : Bool) (before : List Sign)
    {after : List Sign} (follows : ∀ sign ∈ after.head?, Follows sign) :
    (places before (signs outer around outside apart selection) after).filterMap Place.table? = selection.tables := by
  have listed (item : Projection) (more : List Projection) (around : Option ParenRole) (before after : List Sign) :
      (places before ((listLexemes item more).map (flatSign "SELECT" around)) after).filterMap Place.table? = [] := by
    refine filterMap_none (fun sign member before after => ?_) before after
    obtain ⟨lexeme, -, rfl⟩ := List.mem_map.mp member
    exact table?_elsewhere (by decide) lexeme before after
  induction selection generalizing outer around outside apart before after with
  | table item more name =>
    rw [signs, filterMap_start fun place unnamed _ => table?_unnamed unnamed, listed,
      places_singleton, List.filterMap_cons_some (table?_source normalForm_from (by decide) (by decide) name _ follows)]
    rfl
  | join item more first second key =>
    have condition (before : List Sign) :
        (places before ((conditionLexemes first second key).map (flatSign "ON" around))
        after).filterMap Place.table? = [] := by
      refine filterMap_none (fun sign member before after => ?_) before after
      obtain ⟨lexeme, -, rfl⟩ := List.mem_map.mp member
      exact table?_elsewhere (by decide) lexeme before after
    rw [signs, filterMap_start fun place unnamed _ => table?_unnamed unnamed, listed, places,
      List.filterMap_cons_some (table?_source normalForm_from (by decide) (by decide) first _
        (fun sign same => by cases same; exact ⟨rfl, rfl⟩)), places,
      List.filterMap_cons_none (table?_unnamed rfl), places,
      List.filterMap_cons_some (table?_source normalForm_join (by decide) (by decide) second _
        (fun sign same => by cases same; exact ⟨rfl, rfl⟩)), places,
      List.filterMap_cons_none (table?_unnamed rfl), condition]
    rfl
  | nested item more inner name ih =>
    have named (before : List Sign) : Place.table?
        ⟨closeSign .subquery (lastClause inner) around :: before, flatSign "FROM" around (ofName name true), after⟩ =
            none := by
      have last : (closeSign .subquery (lastClause inner) around).closes = true := rfl
      have noDot : (closeSign .subquery (lastClause inner) around).isDot = false := rfl
      simp [Place.table?, Place.previous, last, noDot]
    rw [signs, filterMap_start fun place unnamed _ => table?_unnamed unnamed, listed, places,
      List.filterMap_cons_none (table?_unnamed rfl), places_append, List.filterMap_append,
      ih (some "FROM") true false _ (fun sign same => by cases same; exact ⟨rfl, rfl⟩), places,
      List.filterMap_cons_none (table?_unnamed rfl), places_singleton, List.filterMap_cons_none (named _)]
    exact List.append_nil _

end Tables

section TableAliases

variable {around : Option ParenRole}

/-- If it stands among the tables, it stands after a keyword or a parenthesis. -/
def Unaliased (place : Place) : Prop :=
  place.here.isName = true → Keyword.precedesTables place.clause = true → ∃ sign rest, place.before = sign :: rest ∧
    sign.isWord "AS" = false ∧ String.intercalate "." (Place.nameParts rest sign) ∈ ["FROM", "JOIN", ")"]

theorem unaliased_elsewhere {rest : List Sign}
    (elsewhere : ∀ sign ∈ rest, sign.isName = false ∨ Keyword.precedesTables (sign.clause.getD "") = false)
    (before after : List Sign) : ∀ place ∈ places before rest after, Unaliased place := by
  intro place member isName tables
  rcases elsewhere place.here (here_mem_of_mem_places member) with noName | noTables
  · rw [noName] at isName
    cases isName
  · rw [Place.clause, noTables] at tables
    cases tables

/-- It does not end a name that goes on. -/
def EndsName (before : List Sign) : Prop := ∀ sign ∈ before.head?, sign.isDot = false

theorem nameParts_of_ends {before : List Sign} (ends : EndsName before) (here : Sign) :
    Place.nameParts before here = [here.lexeme.value] := by
  rcases before with _ | ⟨first, _ | ⟨second, rest⟩⟩
  · rfl
  · rfl
  · rw [Place.nameParts, ends first rfl, Bool.false_and, if_neg Bool.false_ne_true]

theorem unaliased_after {sign : Sign} {before : List Sign} (noAs : sign.isWord "AS" = false) (ends : EndsName before)
    (known : sign.lexeme.value ∈ ["FROM", "JOIN", ")"]) (here : Sign) (after : List Sign) :
    Unaliased ⟨sign :: before, here, after⟩ := fun _ _ =>
  ⟨sign, before, rfl, noAs, by rw [nameParts_of_ends ends]; exact known⟩

theorem endsName_list (clause : String) (item : Projection) (more : List Projection) (before : List Sign) :
    EndsName (((listLexemes item more).map (flatSign clause around)).reverse ++ before) := by
  have projection (item : Projection) (before : List Sign) :
      EndsName (((projectionLexemes item).map (flatSign clause around)).reverse ++ before) := by
    obtain ⟨qualifier, column, label⟩ := item
    rcases qualifier with _ | qualifier <;> rcases label with _ | ⟨name, _ | _⟩ <;> rintro sign ⟨⟩ <;> rfl
  induction more generalizing item before with
  | nil => simpa [listLexemes] using projection item before
  | cons next more ih =>
    have later := ih next
      (flatSign clause around comma :: (((projectionLexemes item).map (flatSign clause around)).reverse ++ before))
    simpa [listLexemes] using later

theorem endsName_signs (selection : Selection) (outer : Option String) (outside apart : Bool) (before : List Sign) :
    EndsName ((signs outer around outside apart selection).reverse ++ before) := by
  cases selection with
  | table item more name => simp [signs, EndsName, flatSign, ofName, Sign.isDot]
  | join item more first second key => simp [signs, conditionLexemes, EndsName, flatSign, ofName, Sign.isDot]
  | nested item more inner name => simp [signs, EndsName, flatSign, ofName, Sign.isDot]

/-- No table of a statement has an alias. -/
theorem unaliased_signs (selection : Selection) (outer : Option String) (outside apart : Bool)
    (before after : List Sign) :
    ∀ place ∈ places before (signs outer around outside apart selection) after, Unaliased place := by
  have noAs {word clause : String} (other : Keyword.normalForm word ≠ "AS") (around : Option ParenRole) :
      (flatSign clause around (ofKeyword word true)).isWord "AS" = false := (begins_keyword other).noAs
  have from' (around : Option ParenRole) : (flatSign "SELECT" around (ofKeyword "FROM" true)).isWord "AS" = false :=
    noAs (by rw [normalForm_from]; decide) around
  -- Up to the source no name is one of a table.
  have start {around : Option ParenRole} {outer : Option String} {outside apart : Bool} {item : Projection}
      {more : List Projection} {before rest after : List Sign} (later : ∀ front, EndsName front →
        ∀ place ∈ places (flatSign "SELECT" around (ofKeyword "FROM" true) :: front) rest after, Unaliased place) :
      ∀ place ∈ places before (headSign outer around outside apart ::
        ((listLexemes item more).map (flatSign "SELECT" around) ++
          flatSign "SELECT" around (ofKeyword "FROM" true) :: rest))
          after, Unaliased place := by
    intro place member
    rw [places, places_append] at member
    rcases List.mem_cons.mp member with rfl | inside
    · exact fun isName => by cases isName
    rcases List.mem_append.mp inside with listed | source
    · refine unaliased_elsewhere (fun sign inside => .inr ?_) _ _ place listed
      obtain ⟨lexeme, -, rfl⟩ := List.mem_map.mp inside
      exact show Keyword.precedesTables "SELECT" = false by decide
    rcases List.mem_cons.mp source with rfl | tail
    · exact fun isName => by cases isName
    · exact later _ (endsName_list "SELECT" item more _) place tail
  induction selection generalizing outer around outside apart before after with
  | table item more name =>
    refine start fun front ends place member => ?_
    obtain rfl := List.mem_singleton.mp member
    exact unaliased_after (from' around) ends (by simp [flatSign, ofKeyword]) _ _
  | join item more first second key =>
    refine start fun front ends place member => ?_
    simp only [places, List.mem_cons] at member
    rcases member with rfl | rfl | rfl | rfl | condition
    · exact unaliased_after (from' around) ends (by simp [flatSign, ofKeyword]) _ _
    · exact fun isName => by cases isName
    · exact unaliased_after (noAs (by rw [normalForm_join]; decide) around) (fun sign same => by cases same; rfl)
        (by simp [flatSign, ofKeyword]) _ _
    · exact fun isName => by cases isName
    · refine unaliased_elsewhere (fun sign inside => .inr ?_) _ _ place condition
      obtain ⟨lexeme, -, rfl⟩ := List.mem_map.mp inside
      exact show Keyword.precedesTables "ON" = false by decide
  | nested item more inner name ih =>
    refine start fun front ends place member => ?_
    rw [places, places_append] at member
    rcases List.mem_cons.mp member with rfl | later
    · exact fun isName => by cases isName
    rcases List.mem_append.mp later with inside | last
    · exact ih (some "FROM") true false _ _ place inside
    simp only [places, List.mem_cons, List.not_mem_nil, or_false] at last
    rcases last with rfl | rfl
    · exact fun isName => by cases isName
    · exact unaliased_after rfl (endsName_signs inner _ _ _ _) (by simp [closeSign, closing]) _ _

end TableAliases

end QueryFacts.Proofs.Selections

import QueryFacts.Proofs.Selections.Statement

/-! A statement with common table expressions, where these and the statement itself select
columns: how it is read, and what the passes over it find. -/

namespace QueryFacts
open Text

/-- Common table expressions, each a name with its body, and the statement that they are for. -/
structure WithSelection where
  first : String × Selection
  more : List (String × Selection)
  main : Selection

namespace WithSelection

def all (statement : WithSelection) : List (String × Selection) := statement.first :: statement.more

def text (statement : WithSelection) : String :=
  "WITH " ++
    String.intercalate ", " (statement.all.map fun (name, body) => name ++ " AS (" ++ body.text ++ ")") ++ " " ++
    statement.main.text

/-- Its bodies, and then the statement itself. -/
def parts (statement : WithSelection) : List Selection := statement.all.map (·.2) ++ [statement.main]

structure Known (statement : WithSelection) : Prop where
  names : ∀ declared ∈ statement.all, IsColumnName declared.1
  parts : ∀ part ∈ statement.parts, part.Known

theorem body_mem_parts {statement : WithSelection} {declared : String × Selection} (member : declared ∈ statement.all) :
    declared.2 ∈ statement.parts := List.mem_append_left _ (List.mem_map_of_mem member)

theorem main_mem_parts (statement : WithSelection) : statement.main ∈ statement.parts :=
  List.mem_append_right _ (List.mem_singleton.mpr rfl)

theorem Known.bodies {statement : WithSelection} (known : statement.Known) :
    ∀ declared ∈ statement.all, declared.2.Known := fun _ member => known.parts _ (body_mem_parts member)

theorem Known.main {statement : WithSelection} (known : statement.Known) : statement.main.Known :=
  known.parts _ (main_mem_parts statement)

end WithSelection

namespace Proofs.CommonTables
open Lexeme PlainText SelectList ColumnListStatement Selections

def declarationLexemes (declared : String × Selection) : List Lexeme :=
  ofName declared.1 true :: ofKeyword "AS" true :: opening :: (lexemes false declared.2 ++ [closing])

/-- Declarations with commas between them. -/
def declarationsLexemes (first : String × Selection) : List (String × Selection) → List Lexeme
  | [] => declarationLexemes first
  | next :: more => declarationLexemes first ++ comma :: declarationsLexemes next more

def withLexemes (statement : WithSelection) : List Lexeme :=
  ofKeyword "WITH" true :: (declarationsLexemes statement.first statement.more ++ lexemes true statement.main)

section Lexemes

variable {statement : WithSelection} {first : String × Selection} {more : List (String × Selection)}

theorem usual_declarations (names : ∀ declared ∈ first :: more, IsColumnName declared.1)
    (bodies : ∀ declared ∈ first :: more, declared.2.Known) :
    ∀ lexeme ∈ declarationsLexemes first more, Usual lexeme := by
  have single {declared : String × Selection} (isName : IsColumnName declared.1) (known : declared.2.Known) :
      ∀ lexeme ∈ declarationLexemes declared, Usual lexeme := by
    intro lexeme member
    simp only [declarationLexemes, List.mem_cons, List.mem_append, List.not_mem_nil, or_false] at member
    rcases member with rfl | rfl | rfl | inside | rfl
    · exact .name isName true
    · exact .keyword (by decide) true
    · exact .opening
    · exact usual_lexemes known false lexeme inside
    · exact .closing
  have here := single (names first List.mem_cons_self) (bodies first List.mem_cons_self)
  induction more generalizing first with
  | nil => exact here
  | cons next more ih =>
    intro lexeme member
    rcases List.mem_append.mp member with inside | later
    · exact here lexeme inside
    · rcases List.mem_cons.mp later with rfl | later
      · exact .comma
      · have rest {declared : String × Selection} (member : declared ∈ next :: more) :=
          List.mem_cons_of_mem first member
        exact ih (fun other inside => names other (rest inside)) (fun other inside => bodies other (rest inside))
          (single (names next (rest List.mem_cons_self)) (bodies next (rest List.mem_cons_self))) lexeme later

theorem usual_with (known : statement.Known) : ∀ lexeme ∈ withLexemes statement, Usual lexeme := by
  intro lexeme member
  rcases List.mem_cons.mp member with rfl | later
  · exact .keyword (by decide) true
  · rcases List.mem_append.mp later with declared | main
    · exact usual_declarations known.names known.bodies lexeme declared
    · exact usual_lexemes known.main true lexeme main

theorem closing_adjacent {next : Lexeme} (follows : next = comma ∨ next = ofKeyword "SELECT" true) :
    Adjacent closing next := by
  rcases follows with rfl | rfl
  · exact ⟨by unfold Beside; decide, nofun⟩
  · exact ⟨by unfold Beside; decide, fun _ => by decide⟩

theorem chain_declaration {declared : String × Selection} (isName : IsColumnName declared.1) (known : declared.2.Known)
    {before : Lexeme} (takes : Takes before) {rest : List Lexeme} (after : (closing :: rest).IsChain Adjacent) :
    (before :: (declarationLexemes declared ++ rest)).IsChain Adjacent := by
  have closed : AfterName (closing :: rest) := afterName_cons (.inr (.inr (.inr (.inr rfl)))) after
  have body : (lexemes false declared.2 ++ (closing :: rest)).IsChain Adjacent := chain_lexemes known false closed
  have entered : (opening :: (lexemes false declared.2 ++ (closing :: rest))).IsChain Adjacent := by
    obtain ⟨inner, starts⟩ := head_lexemes declared.2 false
    rw [starts] at body ⊢
    exact List.isChain_cons_cons.mpr ⟨opening_adjacent, body⟩
  have parts : declarationLexemes declared ++ rest =
      ofName declared.1 true :: ofKeyword "AS" true :: opening :: (lexemes false declared.2 ++ (closing :: rest)) := by
    simp [declarationLexemes]
  rw [parts]
  exact chain_name isName takes (afterName_cons (.inl ⟨rfl, by decide⟩)
    (List.isChain_cons_cons.mpr ⟨adjacent_opening (.inr rfl), entered⟩))

theorem chain_declarations (names : ∀ declared ∈ first :: more, IsColumnName declared.1)
    (bodies : ∀ declared ∈ first :: more, declared.2.Known) {before : Lexeme} (takes : Takes before)
    {rest : List Lexeme}
    (after : (closing :: rest).IsChain Adjacent) :
    (before :: (declarationsLexemes first more ++ rest)).IsChain Adjacent := by
  induction more generalizing first before with
  | nil => exact chain_declaration (names first List.mem_cons_self) (bodies first List.mem_cons_self) takes after
  | cons next more ih =>
    have later := ih (fun other member => names other (List.mem_cons_of_mem _ member))
      (fun other member => bodies other (List.mem_cons_of_mem _ member)) (show Takes comma from ⟨nofun, by decide⟩)
    rw [declarationsLexemes, List.append_assoc, List.cons_append]
    exact chain_declaration (names first List.mem_cons_self) (bodies first List.mem_cons_self) takes
      (List.isChain_cons_cons.mpr ⟨closing_adjacent (.inl rfl), later⟩)

theorem chain_with (known : statement.Known) : (withLexemes statement).IsChain Adjacent := by
  have ends : AfterName [] := fun _ _ _ => List.isChain_singleton _
  have main : (lexemes true statement.main).IsChain Adjacent := by simpa using chain_lexemes known.main true ends
  have after : (closing :: lexemes true statement.main).IsChain Adjacent := by
    obtain ⟨inner, starts⟩ := head_lexemes statement.main true
    rw [starts] at main ⊢
    exact List.isChain_cons_cons.mpr ⟨closing_adjacent (.inr rfl), main⟩
  exact chain_declarations known.names known.bodies (takes_keyword (by decide) true) after

theorem spell_declaration (declared : String × Selection) : spell (declarationLexemes declared) =
    ' ' :: (declared.1 ++ " AS (" ++ declared.2.text ++ ")").toList := by
  rw [declarationLexemes, spell, spell, spell, spell_append, spell_lexemes]
  simp [spell, ofName, ofKeyword, opening, closing]

theorem spell_declarations (first : String × Selection) (more : List (String × Selection)) :
    spell (declarationsLexemes first more) = ' ' :: (String.intercalate ", "
      ((first :: more).map fun (name, body) => name ++ " AS (" ++ body.text ++ ")")).toList := by
  induction more generalizing first with
  | nil => rw [declarationsLexemes, spell_declaration]; simp
  | cons next more ih =>
    rw [declarationsLexemes, spell_append, spell_declaration, spell, ih]
    simp [comma, String.toList_intercalate, List.intercalate]

theorem written_with (statement : WithSelection) : written (withLexemes statement) = statement.text.toList := by
  rw [withLexemes, written, spell_append, spell_declarations, spell_lexemes]
  simp [ofKeyword, WithSelection.text, WithSelection.all]

end Lexemes

section Parentheses
open Parenthesis NestingRun

theorem shallow_declarations {bound : Nat} {first : String × Selection} {more : List (String × Selection)}
    (bodies : ∀ declared ∈ first :: more, declared.2.depth + 1 ≤ bound) :
    Shallow (sides (declarationsLexemes first more)) bound := by
  have single {declared : String × Selection} (deep : declared.2.depth + 1 ≤ bound) :
      Shallow (sides (declarationLexemes declared)) bound := by
    have start : Shallow (sides [ofName declared.1 true, ofKeyword "AS" true]) bound :=
      shallow_level
        (by simp [show (ofName declared.1 true).side? = none from rfl,
          show (ofKeyword "AS" true).side? = none from rfl])
        bound
    have group := (shallow_lexemes declared.2 false).wrap.mono deep
    have whole := start.append group
    have parts : sides (declarationLexemes declared) = sides [ofName declared.1 true, ofKeyword "AS" true] ++
        some .opening :: (sides (lexemes false declared.2) ++ [some .closing]) := by
      simp [declarationLexemes, sides, show opening.side? = some .opening from rfl,
        show closing.side? = some .closing from rfl]
    rwa [parts]
  induction more generalizing first with
  | nil => exact single (bodies first List.mem_cons_self)
  | cons next more ih =>
    have mark : Shallow (sides [comma]) bound := shallow_level (by simp [show comma.side? = none from rfl]) bound
    have later := ih fun other member => bodies other (List.mem_cons_of_mem _ member)
    have whole := (single (bodies first List.mem_cons_self)).append (mark.append later)
    rw [← sides_append, ← sides_append] at whole
    exact whole

theorem shallow_with {statement : WithSelection} {bound : Nat}
    (bodies : ∀ declared ∈ statement.all, declared.2.depth + 1 ≤ bound)
    (main : statement.main.depth ≤ bound) : Shallow (sides (withLexemes statement)) bound := by
  have word : Shallow (sides [ofKeyword "WITH" true]) bound :=
    shallow_level (by simp [show (ofKeyword "WITH" true).side? = none from rfl]) bound
  have whole := word.append ((shallow_declarations bodies).append ((shallow_lexemes statement.main true).mono main))
  rw [← sides_append, ← sides_append] at whole
  exact whole

end Parentheses

section Signs
open Places

def declarationSigns (declared : String × Selection) : List Sign :=
  flatSign "WITH" none (ofName declared.1 true) :: flatSign "WITH" none (ofKeyword "AS" true) ::
    openSign .withQuery "WITH" none :: (signs (some "WITH") (some ⟨.withQuery, .opening⟩) true false declared.2 ++
      [closeSign .withQuery (lastClause declared.2) none])

def declarationsSigns (first : String × Selection) : List (String × Selection) → List Sign
  | [] => declarationSigns first
  | next :: more => declarationSigns first ++ flatSign "WITH" none comma :: declarationsSigns next more

def headerSign : Sign := ⟨ofKeyword "WITH" true, (ofKeyword "WITH" true).normalized, none, none, none, false⟩

def withSigns (statement : WithSelection) : List Sign :=
  headerSign :: (declarationsSigns statement.first statement.more ++ signs (some "WITH") none false true statement.main)

/-- Between its declarations, a WITH clause leaves the context as it is. -/
structure InHeader (context : Context) : Prop where
  clause : context.clause = some "WITH"
  outside : context.outside = false
  opened : context.opened = []
  headers : context.headers = [0]

theorem signs_declaration (declared : String × Selection) {context : Context} (inHeader : InHeader context) :
    context.signs (declarationLexemes declared) = declarationSigns declared ∧
      InHeader (context.after (declarationLexemes declared)) := by
  obtain ⟨clause, outside, opened, headers⟩ := inHeader
  let name := ofName declared.1 true
  let as := ofKeyword "AS" true
  have word : as.normalized = "AS" := normalForm_as
  have stepName := step_level (show Level name from ⟨rfl, nofun⟩) context
  have stepAs := step_level (show Level as from ⟨rfl, fun _ => word⟩) { context with last := some name }
  let reached : Context := { context with last := some as }
  have kind : reached.parenKind = .withQuery := by
    have keyword : as.isKeyword = true := rfl
    have noSubquery : Keyword.precedesSubquery "AS" = false := by decide
    simp [reached, Context.parenKind, keyword, word, noSubquery, opened, headers]
  obtain ⟨group, after⟩ := signs_group (signing declared.2) kind (by decide) clause
    (by simp [reached, headers]) []
  constructor
  · rw [declarationLexemes, Context.signs, stepName, Context.signs, stepAs, group, sign_plain rfl, sign_plain rfl]
    simp only [reached, opened, outside, clause]
    rfl
  · have left : context.after (declarationLexemes declared) = { reached with last := some closing } := by
      rw [declarationLexemes, Context.after, List.foldl_cons, stepName, List.foldl_cons, stepAs]
      exact after
    rw [left]
    exact ⟨clause, outside, opened, headers⟩

theorem signs_declarations (first : String × Selection) (more : List (String × Selection)) {context : Context}
    (inHeader : InHeader context) : context.signs (declarationsLexemes first more) = declarationsSigns first more ∧
      InHeader (context.after (declarationsLexemes first more)) := by
  induction more generalizing first context with
  | nil => exact signs_declaration first inHeader
  | cons next more ih =>
    obtain ⟨told, left⟩ := signs_declaration first inHeader
    have step := step_level (show Level comma from ⟨by decide, nofun⟩) (context.after (declarationLexemes first))
    obtain ⟨later, last⟩ :=
      ih next (show InHeader { context.after (declarationLexemes first) with last := some comma } from
      ⟨left.clause, left.outside, left.opened, left.headers⟩)
    constructor
    · rw [declarationsLexemes, Context.signs_append, told, Context.signs, step, later,
        sign_plain (by decide), left.clause, left.opened, left.outside]
      rfl
    · rw [declarationsLexemes, Context.after_append, Context.after, List.foldl_cons, step]
      exact last

/-- The signs of the whole statement. -/
theorem signs_with (statement : WithSelection) :
    (Context.start (withLexemes statement)).signs (withLexemes statement) = withSigns statement := by
  let start := Context.start (withLexemes statement)
  let header := ofKeyword "WITH" true
  have step : start.step header = { start with last := some header, clause := some "WITH", headers := [0] } := by
    rw [step_keyword normalForm_with (by decide)]
    rfl
  have inHeader : InHeader (start.step header) := by
    rw [step]
    exact ⟨rfl, rfl, rfl, rfl⟩
  obtain ⟨declared, left⟩ := signs_declarations statement.first statement.more inHeader
  have ended :
      ((start.step header).after (declarationsLexemes statement.first statement.more)).headersAfter "SELECT" = [] := by
    have starts : Keyword.startsStatement "SELECT" = true := by decide
    simp [Context.headersAfter, left.headers, left.opened, starts]
  obtain ⟨main, -⟩ :=
    signing statement.main ((start.step header).after (declarationsLexemes statement.first statement.more)) true
    (by simp [ended])
  have first : start.sign header = headerSign := sign_plain rfl start
  change start.signs (header :: (declarationsLexemes statement.first statement.more ++ _)) = _
  rw [Context.signs, first, Context.signs_append, declared, main, left.clause, left.opened, left.outside]
  rfl

theorem lexemes_declarations (first : String × Selection) (more : List (String × Selection)) :
    (declarationsSigns first more).map (·.lexeme) = declarationsLexemes first more := by
  have single (declared : String × Selection) :
      (declarationSigns declared).map (·.lexeme) = declarationLexemes declared := by
    simp [declarationSigns, declarationLexemes, flatSign, openSign, closeSign, lexemes_signs]
  induction more generalizing first with
  | nil => exact single first
  | cons next more ih =>
    rw [declarationsSigns, List.map_append, single, List.map_cons, ih]
    rfl

theorem lexemes_with (statement : WithSelection) : (withSigns statement).map (·.lexeme) = withLexemes statement := by
  rw [withSigns, List.map_cons, List.map_append, lexemes_declarations, lexemes_signs]
  rfl

theorem mem_declarationsSigns {first : String × Selection} {more : List (String × Selection)} {sign : Sign}
    (member : sign ∈ declarationsSigns first more) :
    sign = flatSign "WITH" none comma ∨ ∃ declared ∈ first :: more, sign ∈ declarationSigns declared := by
  induction more generalizing first with
  | nil => exact .inr ⟨first, List.mem_cons_self, member⟩
  | cons next more ih =>
    rcases List.mem_append.mp member with here | later
    · exact .inr ⟨first, List.mem_cons_self, here⟩
    · rcases List.mem_cons.mp later with rfl | later
      · exact .inl rfl
      · exact (ih later).imp_right fun ⟨declared, inside, here⟩ => ⟨declared, List.mem_cons_of_mem _ inside, here⟩

theorem simple_with {statement : WithSelection} (known : statement.Known) :
    ∀ sign ∈ withSigns statement, sign.Simple := by
  have flat {clause : Option String} (other : clause ≠ some "INTO" ∧ clause ≠ some "USING") {lexeme : Lexeme}
      (usual : Usual lexeme) : Sign.Simple ⟨lexeme, lexeme.normalized, clause, none, none, false⟩ :=
    simple_of_usual usual rfl (fun _ => rfl) nofun (fun _ none => nomatch none) other
  have outer : Surrounds (some "WITH") none := ⟨by decide, fun _ none => nomatch none⟩
  have inner : Surrounds (some "WITH") (some ⟨.withQuery, .opening⟩) :=
    ⟨by decide, fun role same => by cases same; exact .inr rfl⟩
  intro sign member
  rcases List.mem_cons.mp member with rfl | later
  · exact flat (by decide) (.keyword (by decide) true)
  rcases List.mem_append.mp later with declared | main
  · rcases mem_declarationsSigns declared with rfl | ⟨query, inside, here⟩
    · exact flat (by decide) .comma
    simp only [declarationSigns, List.mem_cons, List.mem_append, List.not_mem_nil, or_false] at here
    rcases here with rfl | rfl | rfl | body | rfl
    · exact flat (by decide) (.name (known.names query inside) true)
    · exact flat (by decide) (.keyword (by decide) true)
    · exact simple_openSign (.inr rfl) (by decide) outer.around
    · exact simple_signs (known.bodies query inside) inner true false sign body
    · exact simple_closeSign (.inr rfl) query.2 outer.around
  · exact simple_signs known.main outer false true sign main

/-- The statement has no other WITH clause. -/
theorem noWith_tail (statement : WithSelection) : ∀ sign ∈ declarationsSigns statement.first statement.more ++
    signs (some "WITH") none false true statement.main, sign.isWord "WITH" = false := by
  intro sign member
  rcases List.mem_append.mp member with declared | main
  · rcases mem_declarationsSigns declared with rfl | ⟨query, inside, here⟩
    · rfl
    simp only [declarationSigns, List.mem_cons, List.mem_append, List.not_mem_nil, or_false] at here
    rcases here with rfl | rfl | rfl | body | rfl
    · rfl
    · rw [Sign.isWord, show (flatSign "WITH" none (ofKeyword "AS" true)).normalized = "AS" from normalForm_as]
      decide
    · rfl
    · exact noWith_signs query.2 _ _ _ _ sign body
    · rfl
  · exact noWith_signs statement.main _ _ _ _ sign main

end Signs

section Passes
open Places

variable {α : Type} {ofPlace : Place → Option α} {ofSelection : Selection → List α} {all : List Sign}

/-- A sign of a WITH clause that is part of no body. -/
structure Mark (sign : Sign) : Prop where
  clause : sign.isName = true → sign.clause = some "WITH"
  paren : sign.paren ≠ some ⟨.subquery, .closing⟩

theorem mark_flat {lexeme : Lexeme} : Mark (flatSign "WITH" none lexeme) := ⟨fun _ => rfl, nofun⟩

theorem mark_open : Mark (openSign .withQuery "WITH" none) := ⟨nofun, nofun⟩

theorem mark_close (clause : String) : Mark (closeSign .withQuery clause none) := ⟨nofun, nofun⟩

theorem mark_header : Mark headerSign := ⟨nofun, nofun⟩

/-- What is told of a selection wherever it stands among the signs of the statement. -/
def Tells (all : List Sign) (ofPlace : Place → Option α) (ofSelection : Selection → List α)
    (selection : Selection) : Prop :=
  ∀ around outside apart before after,
    all = before.reverse ++ (signs (some "WITH") around outside apart selection ++ after) →
    (∀ sign ∈ after.head?, Follows sign) →
    (places before (signs (some "WITH") around outside apart selection) after).filterMap ofPlace = ofSelection selection

section Marks

variable (marks : ∀ place, Among all place → Mark place.here → ofPlace place = none)
include marks

theorem filterMap_marks {rest before after : List Sign} (whole : all = before.reverse ++ (rest ++ after))
    (only : ∀ sign ∈ rest, Mark sign) : (places before rest after).filterMap ofPlace = [] :=
  filterMap_among (fun place among member => marks place among (only _ member)) whole

theorem filterMap_declaration {declared : String × Selection} (tells : Tells all ofPlace ofSelection declared.2)
    {before after : List Sign} (whole : all = before.reverse ++ (declarationSigns declared ++ after)) :
    (places before (declarationSigns declared) after).filterMap ofPlace = ofSelection declared.2 := by
  let start := [flatSign "WITH" none (ofName declared.1 true), flatSign "WITH" none (ofKeyword "AS" true),
    openSign .withQuery "WITH" none]
  let inside := signs (some "WITH") (some ⟨.withQuery, .opening⟩) true false declared.2
  let close := closeSign .withQuery (lastClause declared.2) none
  have parts : declarationSigns declared = start ++ (inside ++ [close]) := rfl
  rw [parts] at whole ⊢
  have first : (places before start ((inside ++ [close]) ++ after)).filterMap ofPlace = [] := by
    refine filterMap_marks marks (by rw [whole, List.append_assoc]) fun sign member => ?_
    simp only [start, List.mem_cons, List.not_mem_nil, or_false] at member
    rcases member with rfl | rfl | rfl
    · exact mark_flat
    · exact mark_flat
    · exact mark_open
  have body : (places (start.reverse ++ before) inside ([close] ++ after)).filterMap ofPlace = ofSelection declared.2 :=
    tells _ true false _ _ (by rw [whole]; simp [inside]) fun sign starts => by cases starts; exact ⟨rfl, rfl⟩
  have last : (places (inside.reverse ++ (start.reverse ++ before)) [close] after).filterMap ofPlace = [] :=
    filterMap_marks marks (by rw [whole]; simp) fun sign member => List.mem_singleton.mp member ▸ mark_close _
  rw [places_append, List.filterMap_append, first, places_append, List.filterMap_append, body, last]
  exact List.append_nil _

theorem filterMap_declarations {first : String × Selection} {more : List (String × Selection)}
    (tells : ∀ declared ∈ first :: more, Tells all ofPlace ofSelection declared.2) {before after : List Sign}
    (whole : all = before.reverse ++ (declarationsSigns first more ++ after)) :
    (places before (declarationsSigns first more) after).filterMap ofPlace =
      (first :: more).flatMap fun declared => ofSelection declared.2 := by
  induction more generalizing first before with
  | nil =>
    rw [declarationsSigns, filterMap_declaration marks (tells first List.mem_cons_self) whole]
    exact (List.flatMap_singleton _ _).symm
  | cons next more ih =>
    let mark := flatSign "WITH" none comma
    have parts : declarationsSigns first (next :: more) =
        declarationSigns first ++ ([mark] ++ declarationsSigns next more) := rfl
    rw [parts] at whole ⊢
    have here := filterMap_declaration marks (tells first List.mem_cons_self)
      (show all = before.reverse ++ (declarationSigns first ++ (([mark] ++ declarationsSigns next more) ++ after)) by
        rw [whole, List.append_assoc])
    have between :
        (places ((declarationSigns first).reverse ++ before) [mark] (declarationsSigns next more ++ after)).filterMap
        ofPlace = [] :=
      filterMap_marks marks (by rw [whole]; simp) fun sign member => List.mem_singleton.mp member ▸ mark_flat
    have later := ih (fun declared member => tells declared (List.mem_cons_of_mem _ member))
      (show all = ([mark].reverse ++ ((declarationSigns first).reverse ++ before)).reverse ++
        (declarationsSigns next more ++ after) by rw [whole]; simp)
    rw [places_append, List.filterMap_append, here, places_append, List.filterMap_append, between, later]
    rfl

end Marks

/-- The bodies and the statement itself tell what the whole statement tells. -/
theorem filterMap_with {statement : WithSelection}
    (marks : ∀ place, Among (withSigns statement) place → Mark place.here → ofPlace place = none)
    (tells : ∀ part ∈ statement.parts, Tells (withSigns statement) ofPlace ofSelection part) :
    (places [] (withSigns statement) []).filterMap ofPlace = statement.parts.flatMap ofSelection := by
  let declared := declarationsSigns statement.first statement.more
  let ends := signs (some "WITH") none false true statement.main
  have parts : withSigns statement = [headerSign] ++ (declared ++ ends) := rfl
  have header : (places [] [headerSign] ((declared ++ ends) ++ [])).filterMap ofPlace = [] :=
    filterMap_marks marks (by rw [parts]; simp) fun sign member => List.mem_singleton.mp member ▸ mark_header
  have first : (places [headerSign] declared (ends ++ [])).filterMap ofPlace =
      statement.all.flatMap fun declared => ofSelection declared.2 :=
    filterMap_declarations marks (fun declared member => tells _ (WithSelection.body_mem_parts member))
      (by rw [parts]; simp [declared])
  have last : (places (declared.reverse ++ [headerSign]) ends []).filterMap ofPlace = ofSelection statement.main :=
    tells _ (WithSelection.main_mem_parts statement) _ false true _ _ (by rw [parts]; simp [ends]) (by simp)
  rw [parts, places_append, List.filterMap_append, header, List.reverse_singleton, List.append_nil, places_append,
    List.filterMap_append, first, last, WithSelection.parts, List.flatMap_append, List.flatMap_map,
    List.flatMap_singleton]
  rfl

theorem unaliased_with (statement : WithSelection) : ∀ place ∈ places [] (withSigns statement) [], Unaliased place := by
  classical
  let other := fun place => if Unaliased place then none else some place
  have noTables : Keyword.precedesTables "WITH" = false := by decide
  have marks (place : Place) (mark : Mark place.here) : other place = none := by
    refine if_pos fun isName tables => ?_
    rw [Place.clause, mark.clause isName, Option.getD_some, noTables] at tables
    cases tables
  have tells (selection : Selection) : Tells (withSigns statement) other (fun _ => []) selection := by
    intro around outside apart before after _ _
    exact List.filterMap_eq_nil_iff.mpr fun place member =>
      if_pos (unaliased_signs selection _ _ _ before after place member)
  have whole : (places [] (withSigns statement) []).filterMap other = [] := by
    rw [filterMap_with (fun place _ => marks place) fun part _ => tells part]
    simp
  intro place member
  by_contra aliased
  have found := List.filterMap_eq_nil_iff.mp whole place member
  rw [show other place = some place from if_neg aliased] at found
  cases found

end Passes

/-- A statement with common table expressions, as it is read. -/
structure StandaloneWith (limits : Limits) (statement : WithSelection) (sequence : TokenSequence) : Prop where
  tokens : queryTokens limits statement.text = .ok sequence
  reads : Reads limits (withLexemes statement) sequence
  signed : Places.Signed sequence (withSigns statement)

theorem exists_standaloneWith {limits : Limits} {statement : WithSelection} (known : statement.Known)
    (bodies : ∀ declared ∈ statement.all, declared.2.depth + 1 ≤ limits.maxNestingDepth)
    (main : statement.main.depth ≤ limits.maxNestingDepth) (few : (withLexemes statement).length ≤ limits.maxTokens) :
    ∃ sequence, StandaloneWith limits statement sequence := by
  have first : ∀ lexeme ∈ (withLexemes statement).head?, lexeme.spaceBefore = true ∧ lexeme.kind ≠ .operator := by
    rintro lexeme ⟨⟩
    exact ⟨rfl, nofun⟩
  obtain ⟨sequence, tokens, reads⟩ :=
    exists_reads (usual_with known) (chain_with known) first (shallow_with bodies main) (Nat.le_refl _) few
  rw [written_with, String.ofList_toList] at tokens
  exact ⟨sequence, tokens, reads, reads.signed (signs_with statement) (simple_with known)⟩

section Clause
open Places WithClause

variable {limits : Limits} {sequence : TokenSequence} {all : List Sign}

theorem sign?_isWord {cursor : Cursor} {sign : Sign} (found : cursor.sign? = some sign) (word : String) :
    cursor.isWord word = sign.isWord word := by
  rw [Places.isWord, found]
  rfl

/-- What is declared, added to what was declared before. -/
def declare (clause : WithClause) (declared : String × Selection) : WithClause :=
  { clause with bodies := clause.bodies.insertNew declared.1 declared.2.text }

section Declaration

variable {lexemes : List Lexeme} (reads : Reads limits lexemes sequence) (signed : Signed sequence all)
  (same : all.map (·.lexeme) = lexemes)
include reads signed same

/-- A body is read up to the sign after it. -/
theorem readBody_signs {inner : Selection} {before after : List Sign} (whole : all = before.reverse ++
      openSign .withQuery "WITH" none :: (signs (some "WITH") (some ⟨.withQuery, .opening⟩) true false inner ++
        closeSign .withQuery (lastClause inner) none :: after))
    (noAs : ∀ sign ∈ after.head?, sign.isWord "AS" = false) (clause : WithClause) (name : String) :
    readBody clause name (sequence.cursor before.length) = .ok (declare clause (name, inner),
      if after.head?.any Sign.isComma then
        some (sequence.cursor
          (before.length + (signs (some "WITH") (some ⟨.withQuery, .opening⟩) true false inner).length + 3))
      else none) := by
  let inside := signs (some "WITH") (some ⟨.withQuery, .opening⟩) true false inner
  let open' := openSign .withQuery "WITH" none
  let close := closeSign .withQuery (lastClause inner) none
  let place : Place := ⟨inside.reverse ++ open' :: before, close, after⟩
  obtain ⟨closes, first, matching, -, -, write⟩ := bracketed reads signed same whole (show place = _ from rfl)
  have sees := sees_place signed closes
  have opens : (sequence.cursor before.length).opens .withQuery = true := by
    rw [Cursor.opens, paren?, here_eq signed (show Among all ⟨before, open', inside ++ close :: after⟩ from whole)]
    rfl
  have isComma : (sequence.cursor place.before.length).next.isComma = after.head?.any Sign.isComma := by
    rw [Places.isComma, sees.next]
    rfl
  have notAs : (sequence.cursor place.before.length).next.isWord "AS" = false := by
    rw [Places.isWord, sees.next, Place.next]
    cases starts : after.head? with
    | none => rfl
    | some sign => exact noAs sign starts
  have second :
      (sequence.cursor place.before.length).next.next = sequence.cursor (before.length + inside.length + 3) := by
    rw [Cursor.next_cursor, Cursor.next_cursor]
    congr 1
    simp only [place, List.length_append, List.length_reverse, List.length_cons]
    omega
  simp only [readBody, opens, matching, first, sees.index, isComma, notAs, second, Bool.not_true,
    Bool.false_eq_true, if_false]
  rw [show (sequence.cursor before.length).sequence = sequence from rfl, write]
  split <;> rfl

/-- A declaration is read up to the sign after it. -/
theorem readQuery_signs {declared : String × Selection} {begin : Sign} {before after : List Sign}
    (begins : begin.isDot = false)
    (whole : all = (begin :: before).reverse ++ (declarationSigns declared ++ after))
    (noAs : ∀ sign ∈ after.head?, sign.isWord "AS" = false) (clause : WithClause) :
    readQuery clause (sequence.cursor (begin :: before).length) = .ok (declare clause declared,
      if after.head?.any Sign.isComma then
        some (sequence.cursor ((begin :: before).length + (declarationSigns declared).length + 1)) else none) := by
  let name := flatSign "WITH" none (ofName declared.1 true)
  let as := flatSign "WITH" none (ofKeyword "AS" true)
  let front := begin :: before
  let rest :=
    openSign .withQuery "WITH" none :: (signs (some "WITH") (some ⟨.withQuery, .opening⟩) true false declared.2 ++
    closeSign .withQuery (lastClause declared.2) none :: after)
  have parts : all = front.reverse ++ name :: as :: rest := by
    rw [whole]
    simp [declarationSigns, name, as, rest, front]
  have seesName := sees_place signed (show Among all ⟨front, name, as :: rest⟩ from parts)
  have seesAs := sees_place signed (show Among all ⟨name :: front, as, rest⟩ by rw [Among, parts]; simp)
  have body :=
    readBody_signs reads signed same
      (show all = (as :: name :: front).reverse ++ rest by rw [parts]; simp) noAs clause declared.1
  have next : (sequence.cursor front.length).next = sequence.cursor (name :: front).length := Cursor.next_cursor
  have nextNext : (sequence.cursor (name :: front).length).next = sequence.cursor (as :: name :: front).length :=
    Cursor.next_cursor
  have noDot : (sequence.cursor (name :: front).length).isDot = false := by
    rw [Places.isDot, seesAs.here]
    rfl
  have noList : (sequence.cursor (name :: front).length).opens .withColumns = false := by
    rw [Cursor.opens, paren?, seesAs.here]
    rfl
  have isAs : (sequence.cursor (name :: front).length).isWord "AS" = true := by
    rw [sign?_isWord seesAs.here, Sign.isWord, show as.normalized = "AS" from normalForm_as]
    rfl
  have isName : isQueryName (sequence.cursor front.length) = true := by
    rw [isQueryName, seesName.isName]
    rfl
  have last (count : Nat) : lastNamePart count (sequence.cursor front.length) = sequence.cursor front.length := by
    cases count with
    | zero => rfl
    | succ count => rw [lastNamePart, next, noDot, Bool.false_and, if_neg Bool.false_ne_true]
  have dotted : (sequence.cursor front.length).dottedName = declared.1 := by
    rw [seesName.dottedName, Place.dottedName, nameParts_of_ends (fun sign same => by cases same; exact begins)]
    rfl
  have length :
      (as :: name :: front).length +
        (signs (some "WITH") (some ⟨.withQuery, .opening⟩) true false declared.2).length + 3 =
      front.length + (declarationSigns declared).length + 1 := by
    simp only [declarationSigns, List.length_append, List.length_cons, List.length_nil]
    omega
  rw [length] at body
  show readQuery clause (sequence.cursor front.length) = _
  simp only [readQuery, isName, last, next, noList, isAs, dotted, nextNext, Bool.not_true,
    Bool.false_eq_true, if_false, if_true]
  exact body

/-- Declarations are read up to the statement that they are for. -/
theorem readQueries_signs {first : String × Selection} {more : List (String × Selection)} {begin : Sign}
    {before after : List Sign} (begins : begin.isDot = false)
    (whole : all = (begin :: before).reverse ++ (declarationsSigns first more ++ after))
    (ends : ∀ sign ∈ after.head?, sign.isWord "AS" = false ∧ sign.isComma = false) (clause : WithClause) {count : Nat}
    (enough : more.length < count) :
    readQueries clause count (sequence.cursor (begin :: before).length) =
        .ok ((first :: more).foldl declare clause) := by
  induction more generalizing first begin before clause count with
  | nil =>
    obtain ⟨count, rfl⟩ := Nat.exists_eq_succ_of_ne_zero (Nat.ne_of_gt enough)
    have last : after.head?.any Sign.isComma = false := by
      cases starts : after.head? with
      | none => rfl
      | some sign => exact (ends sign starts).2
    rw [readQueries,
      readQuery_signs reads signed same begins whole (fun sign starts => (ends sign starts).1) clause, last]
    rfl
  | cons next more ih =>
    obtain ⟨count, rfl⟩ := Nat.exists_eq_succ_of_ne_zero (Nat.ne_of_gt (Nat.lt_of_le_of_lt (Nat.zero_le _) enough))
    let mark := flatSign "WITH" none comma
    let front := (declarationSigns first).reverse ++ begin :: before
    have parts :
        all = (begin :: before).reverse ++
            (declarationSigns first ++ mark :: (declarationsSigns next more ++ after)) := by
      rw [whole, declarationsSigns, List.append_assoc]
      rfl
    have later : all = (mark :: front).reverse ++ (declarationsSigns next more ++ after) := by
      rw [parts]
      simp [front]
    have place : (begin :: before).length + (declarationSigns first).length + 1 = (mark :: front).length := by
      simp only [front, List.length_cons, List.length_append, List.length_reverse]
      omega
    have step : readQuery clause (sequence.cursor (begin :: before).length) =
        .ok (declare clause first, some (sequence.cursor (mark :: front).length)) := by
      rw [readQuery_signs reads signed same begins parts (fun sign starts => by cases starts; rfl) clause, place]
      rfl
    rw [readQueries, step]
    exact ih rfl later (declare clause first) (Nat.lt_of_succ_lt_succ enough)

end Declaration

theorem foldl_declare (queries : List (String × Selection)) (clause : WithClause) :
    let texts := queries.map fun (name, body) => (name, body.text)
    queries.foldl declare clause =
      { clause with bodies := texts.foldl (fun map (name, text) => map.insertNew name text) clause.bodies } := by
  intro texts
  induction queries generalizing clause with
  | nil => rfl
  | cons declared rest ih => exact ih (declare clause declared)

theorem length_declarationsSigns (first : String × Selection) (more : List (String × Selection)) :
    more.length < (declarationsSigns first more).length := by
  induction more generalizing first with
  | nil => exact Nat.zero_lt_succ _
  | cons next more ih =>
    have later := ih next
    simp only [declarationsSigns, List.length_append, List.length_cons]
    omega

end Clause

namespace StandaloneWith
open Places

variable {limits : Limits} {statement : WithSelection} {sequence : TokenSequence}
  (standalone : StandaloneWith limits statement sequence)
include standalone

theorem kind : StatementKind.ofTokens sequence = .ok .select :=
  kind_eq standalone.signed rfl (.inr normalForm_with) (show "WITH" ≠ "(" by decide)

/-- The statement declares its common table expressions, and no other. -/
theorem withClause : WithClause.ofTokens sequence =
    .ok { bodies := NameMap.ofFirstPairs (statement.all.map fun (name, body) => (name, body.text)) } := by
  have signed := standalone.signed
  let tail := declarationsSigns statement.first statement.more ++ signs (some "WITH") none false true statement.main
  have sees : Sees (sequence.cursor 0) ⟨[], headerSign, tail⟩ :=
    sees_place signed (show Among (withSigns statement) ⟨[], headerSign, tail⟩ from rfl)
  have size : sequence.size = tail.length + 1 := size_eq signed
  have header : WithClause.isHeader (sequence.cursor 0) = true := by
    have word : (sequence.cursor 0).isWord "WITH" = true := by
      rw [sign?_isWord sees.here, Sign.isWord, show headerSign.normalized = "WITH" from normalForm_with]
      rfl
    have first : (sequence.cursor 0).previous.isEmpty = true := by
      rw [Cursor.cursor_of_lt (by omega)]
      rfl
    rw [WithClause.isHeader, word, first]
    rfl
  have others : ((List.range tail.length).map (sequence.cursor ·.succ)).filter WithClause.isHeader = [] := by
    refine List.filter_eq_nil_iff.mpr fun cursor member => ?_
    obtain ⟨index, inside, rfl⟩ := List.mem_map.mp member
    have found := signed.sign? index.succ
    rw [show (withSigns statement)[index.succ]? = tail[index]? from rfl,
      List.getElem?_eq_getElem (List.mem_range.mp inside)] at found
    rw [WithClause.isHeader, sign?_isWord found, noWith_tail statement _ (List.getElem_mem _)]
    simp
  have headers : sequence.cursors.filter WithClause.isHeader = [sequence.cursor 0] := by
    rw [Cursor.cursors_eq_map, size, List.range_succ_eq_map, List.map_cons, List.map_map,
      List.filter_cons_of_pos header]
    exact congrArg (sequence.cursor 0 :: ·) others
  have notRecursive : (sequence.cursor 0).next.isWord "RECURSIVE" = false :=
    isWord_eq_false sees.next sees.simpleNext (by decide)
  have next : (sequence.cursor 0).next = sequence.cursor [headerSign].length := Cursor.next_cursor
  have ends : ∀ sign ∈ (signs (some "WITH") none false true statement.main).head?,
      sign.isWord "AS" = false ∧ sign.isComma = false := by
    obtain ⟨rest, starts⟩ := head_signs statement.main (some "WITH") none false true
    rw [starts]
    rintro sign ⟨⟩
    exact ⟨(starts_head none (some "WITH") false true).noAs, rfl⟩
  have enough : statement.more.length < sequence.size := by
    have fewer := length_declarationsSigns statement.first statement.more
    rw [size, List.length_append]
    omega
  have declared :=
    readQueries_signs standalone.reads signed (lexemes_with statement) (show headerSign.isDot = false from rfl)
    (show withSigns statement = [headerSign].reverse ++ (_ ++ _) from rfl) ends {} enough
  rw [foldl_declare] at declared
  rw [WithClause.ofTokens, headers, List.foldlM_cons, WithClause.readHeader, notRecursive, next]
  exact congrArg (· >>= fun clause => .ok clause) declared

theorem subqueries : Subquery.bodies sequence =
    NameMap.ofFirstPairs
        (statement.parts.flatMap fun part => part.bodies.map fun (name, inner) => (name, inner.text)) := by
  have tells (selection : Selection) : Tells (withSigns statement) (namedAt sequence)
      (fun part => part.bodies.map fun (name, inner) => (name, inner.text)) selection :=
    fun _ _ _ _ _ whole _ => bodies_signs standalone.reads standalone.signed (lexemes_with statement) whole
  rw [Subquery.bodies, filterMap_places standalone.signed fun place _ =>
    show Subquery.named? _ = namedAt sequence place from rfl,
    filterMap_with (fun place among mark => namedAt_none standalone.signed among mark.paren) fun part _ => tells part]

theorem tables (withNames : List String) : Table.names sequence withNames =
    (distinct (statement.parts.flatMap Selection.tables)).filter (!withNames.contains ·) := by
  have noTables : Keyword.precedesTables "WITH" = false := by decide
  have marks (place : Place) (mark : Mark place.here) : place.table? = none := by
    cases isName : place.here.isName with
    | false => exact table?_unnamed isName
    | true => simp [Place.table?, Place.clause, mark.clause isName, noTables]
  have tells (selection : Selection) : Tells (withSigns statement) Place.table? Selection.tables selection :=
    fun _ outside apart before _ _ follows => tables_signs selection _ outside apart before follows
  rw [names_eq standalone.signed, filterMap_with (fun place _ => marks place) fun part _ => tells part]

theorem tableAliases {tables : List String} (names : ∀ table ∈ tables, IsColumnName table) :
    Table.aliases sequence tables = {} := aliases_of_unaliased standalone.signed (unaliased_with statement) names

omit standalone in
theorem undeclared (unlabelled : ∀ part ∈ statement.parts, ∀ item ∈ part.items, item.label = none) :
    declarations (withSigns statement) = [] := by
  have noColumns : Keyword.precedesColumns "WITH" = false := by decide
  have marks (place : Place) (mark : Mark place.here) : place.declaration? = none := by
    refine if_neg (Bool.not_eq_true _ ▸ ?_)
    cases isName : place.here.isName with
    | false => exact declares_unnamed isName
    | true => simp [Place.declares, Place.clause, mark.clause isName, noColumns]
  have tells (part : Selection) (member : part ∈ statement.parts) :
      Tells (withSigns statement) Place.declaration? (fun _ => []) part :=
    fun around outside apart before after _ _ =>
      undeclared_signs (unlabelled part member) _ around outside apart before after
  rw [declarations, filterMap_with (fun place _ => marks place) tells]
  simp

theorem mentions (known : statement.Known) (aliasNames : List String) : Column.mentions sequence aliasNames
    ((declarations (withSigns statement)).map (·.position)) =
        statement.parts.flatMap (Selection.mentions aliasNames) := by
  have noColumns : Keyword.precedesColumns "WITH" = false := by decide
  have marks (place : Place) (mark : Mark place.here) : place.mention? aliasNames = none := by
    cases isName : place.here.isName with
    | false => exact mention?_unnamed isName
    | true => simp [Place.mention?, Place.isColumn, Place.clause, mark.clause isName, noColumns]
  have tells (part : Selection) (member : part ∈ statement.parts) :
      Tells (withSigns statement) (Place.mention? aliasNames) (Selection.mentions aliasNames) part :=
    fun _ outside apart before _ _ follows => mentions_signs (known.parts part member) _ outside apart before follows
  rw [mentions_eq standalone.signed, filterMap_with (fun place _ => marks place) tells]

end StandaloneWith

end Proofs.CommonTables

end QueryFacts

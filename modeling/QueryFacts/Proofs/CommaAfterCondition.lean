import QueryFacts.Proofs.BareFacts
import QueryFacts.Proofs.FromTables
import QueryFacts.Proofs.MentionSpots

/-! Two tables that are joined with a condition, and more tables after commas. The last keyword
before these is the one of the condition, so that no table is seen in them: after ON they are read
as columns, and after USING they are not read at all. -/

namespace QueryFacts
open Text

/-- What two tables are joined by. -/
inductive JoinKey where
  | on (left right : String)
  | columns (name : String)

namespace JoinKey

def names : JoinKey → List String
  | on left right => [left, right]
  | columns name => [name]

def condition (first second : String) : JoinKey → JoinCondition
  | on left right => .on ⟨⟨first, left, []⟩, .equal, ⟨second, right, []⟩⟩ []
  | columns name => .columns name []

/-- The names that are read as columns, and the columns that they spell. -/
def places (first second : String) (rest : List String) : JoinKey → List (String × String)
  | on left right =>
    [(left, String.intercalate "." [first, left]), (right, String.intercalate "." [second, right])] ++
      rest.map fun name => (name, name)
  | columns name => [(name, name)]

/-- These columns, without names of functions that are never columns. -/
def found (first second : String) (rest : List String) (key : JoinKey) : List String :=
  ((key.places first second rest).filter fun (name, _) =>
    !Keyword.isIgnoredFunction (Keyword.normalForm name)).map (·.2)

end JoinKey

/-- The tables `first` and `second` with a condition, and the tables `rest` after commas. -/
def commaJoin (first second : String) (key : JoinKey) (rest : List String) : FromClause where
  first := { first }
  steps :=
    .join [] { first := second } (some (key.condition first second)) :: rest.map fun name => .comma { first := name }

end QueryFacts

namespace QueryFacts.Proofs.CommaAfterCondition
open Text Lexeme PlainText SelectList ColumnListStatement Selections JoinKeywords FromClauses Clauses Spots
open ColumnSpots FromTables Unnested
  MeantColumns MentionSpots

section Statement

variable {context : Context} {before : List Lexeme} {first second : String} {key : JoinKey} {rest : List String}

/-- The tables after commas. -/
def moreLexemes (rest : List String) : List Lexeme := rest.flatMap fun name => [comma, ofName name true]

theorem lexemes_commaJoin : (commaJoin first second key rest).lexemes = selectStar ++
    ([ofName first true, ofKeyword "JOIN" true, ofName second true] ++
        (joinConditionLexemes (key.condition first second) ++ moreLexemes rest)) := by
  have more : (rest.map fun name => FromStep.comma { first := name }).flatMap stepLexemes = moreLexemes rest := by
    rw [List.flatMap_map]
    rfl
  have join : joinKeyword [] = ofKeyword "JOIN" true := by decide
  rw [FromClause.lexemes, commaJoin, List.flatMap_cons, more, stepLexemes, join]
  simp [referenceLexemes, dottedLexemes, labelLexemes, stepTail, FromStep.reference, FromStep.condition?]

/-- The context of the condition. -/
theorem after_joined (lexemes : List Lexeme) : ((Context.start lexemes).after selectStar).after
    [ofName first true, ofKeyword "JOIN" true, ofName second true] =
      { last := some (ofName second true), clause := some "JOIN", awaitsColumns := isCreateTable lexemes } := by
  rw [after_selectStar, Context.after, List.foldl_cons, List.foldl_cons, List.foldl_cons, List.foldl_nil, step_name,
    step_keyword normalForm_join (by decide), headersAfter_other (by decide) (by decide), step_name]

def mentionsOf (places : List (String × String)) : List Column.Mention :=
  (places.filter fun (name, _) => !Keyword.isIgnoredFunction (Keyword.normalForm name)).map fun (_, column) =>
    mentionOf (column, .join)

theorem mentionsOf_cons (place : String × String) (places : List (String × String)) : mentionsOf (place :: places) =
    (if Keyword.isIgnoredFunction (Keyword.normalForm place.1) then
      none else some (mentionOf (place.2, .join))).toList ++
      mentionsOf places := by
  unfold mentionsOf
  cases ignored : Keyword.isIgnoredFunction (Keyword.normalForm place.1) <;> simp [ignored]

theorem mentionsOf_append (places more : List (String × String)) :
    mentionsOf (places ++ more) = mentionsOf places ++ mentionsOf more := by
  rw [mentionsOf, List.filter_append, List.map_append]
  rfl

theorem wordless_more (rest : List String) :
    ∀ lexeme ∈ moreLexemes rest, lexeme.Wordless ∧ lexeme.isWildcard = false := by
  intro lexeme member
  obtain ⟨name, -, here⟩ := List.mem_flatMap.mp member
  simp only [List.mem_cons, List.not_mem_nil, or_false] at here
  rcases here with rfl | rfl
  · exact ⟨⟨by decide, rfl⟩, rfl⟩
  · exact ⟨⟨rfl, rfl⟩, rfl⟩

theorem ends_more (rest : List String) : Halts (moreLexemes rest ++ []) := by
  cases rest with
  | nil => exact ⟨rfl, rfl⟩
  | cons name rest => exact ⟨rfl, show comma.isPunctuation "(" = false by decide⟩

/-- After ON the tables after commas are read as columns. -/
theorem mentions_more (clause : context.clause = some "ON") (opened : context.opened = []) :
    (spots context before (moreLexemes rest) []).filterMap (Spot.mention? [] []) =
        mentionsOf (rest.map fun name => (name, name)) := by
  induction rest generalizing context before with
  | nil => rfl
  | cons name rest ih =>
    have mark : context.Resumes (context.step comma) := resumes_step (staying_of_wordless ⟨by decide, rfl⟩)
    have word : (context.step comma).Resumes ((context.step comma).step (ofName name true)) :=
      resumes_step (staying_of_wordless ⟨rfl, rfl⟩)
    have both := mark.trans word
    have sec : Spot.section? ⟨context.step comma, comma :: before, ofName name true, moreLexemes rest ++ []⟩ =
        some .join := section?_on (by rw [Spot.clause, mark.clause, clause]; rfl)
    have spelled : nameBefore (ofName name true :: comma :: before) = name :=
      nameBefore_undotted (undotted_cons rfl before) _
    have frames : ∀ frame ∈ (context.step comma).opened.head?, frame.kind ≠ .withColumns ∧
        frame.kind ≠ .createTableColumns := by
      rw [mark.opened, opened]
      simp
    have here := @mention?_name _ _ _ _ [] calm_comma (ends_more rest) frames name true [] rfl _ sec
    rw [spelled, ofName_bare] at here
    change (spots context before (comma :: ofName name true :: moreLexemes rest) []).filterMap _ = _
    rw [Spots.filterMap_cons, mention?_of_other rfl rfl, Spots.filterMap_cons, here,
      ih (both.clause.trans clause) (both.opened.trans opened), List.map_cons, mentionsOf_cons]
    rfl

theorem lexemes_on {left right : String} :
    joinConditionLexemes (.on ⟨⟨first, left, []⟩, .equal, ⟨second, right, []⟩⟩ []) ++ moreLexemes rest =
      ofKeyword "ON" true ::
          (qualifiedLexemes ⟨first, left, []⟩ ++
              equals :: (qualifiedLexemes ⟨second, right, []⟩ ++ moreLexemes rest)) := by
  simp [joinConditionLexemes, comparisonLexemes, Comparison.lexeme, Comparison.symbol, equals]

/-- A column with its table in a condition. -/
theorem mentions_column {last : Lexeme} {after : List Lexeme} {table column : String} (noDot : last.isDot = false)
    (clause : context.clause = some "ON") (opened : context.opened = [])
    (ends : Halts after) :
    (spots context (last :: before) (qualifiedLexemes ⟨table, column, []⟩) after).filterMap (Spot.mention? [] []) =
      mentionsOf [(column, String.intercalate "." [table, column])] := by
  have name : context.Resumes (context.step (ofName table true)) := resumes_step (staying_of_wordless ⟨rfl, rfl⟩)
  have staying : dot.Staying := staying_of_wordless ⟨rfl, rfl⟩
  have resumes := name.trans (resumes_step staying)
  have sec : Spot.section? ⟨(context.step (ofName table true)).step dot, dot :: ofName table true :: last :: before,
      ofName column false, after⟩ = some .join := section?_on (by rw [Spot.clause, resumes.clause, clause]; rfl)
  have spelled : nameBefore (ofName column false :: dot :: ofName table true :: last :: before) =
      String.intercalate "." [table, column] := by
    have dotted : (dot.isDot && (ofName table true).isName) = true := rfl
    rw [nameBefore, nameParts, if_pos dotted, nameParts_undotted (undotted_cons noDot before)]
    rfl
  have frames : ∀ frame ∈ ((context.step (ofName table true)).step dot).opened.head?,
      frame.kind ≠ .withColumns ∧ frame.kind ≠ .createTableColumns := by
    rw [resumes.opened, opened]
    simp
  have here := @mention?_name _ _ _ _ [] calm_dot ends frames column false [] rfl _ sec
  rw [spelled, ofName_bare] at here
  change (spots context (last :: before) [ofName table true, dot, ofName column false] after).filterMap _ = _
  rw [Spots.filterMap_cons, mention?_of_dot rfl rfl, Spots.filterMap_cons, mention?_of_other rfl rfl,
    Spots.filterMap_cons, mentionsOf_cons]
  exact congrArg (fun found => [] ++ ([] ++ (Option.toList found ++ []))) here

/-- The mentions of a condition after ON, with the tables after it. -/
theorem mentions_on {left right : String} (opened : context.opened = []) :
    (spots context before
      (joinConditionLexemes (.on ⟨⟨first, left, []⟩, .equal, ⟨second, right, []⟩⟩ []) ++ moreLexemes rest) []).filterMap
      (Spot.mention? [] []) = mentionsOf ((JoinKey.on left right).places first second rest) := by
  let condition := qualifiedLexemes ⟨first, left, []⟩
  let other := qualifiedLexemes ⟨second, right, []⟩
  obtain ⟨clause, -, same⟩ := step_significant context (ofKeyword "ON" true) rfl (by decide)
  rw [show (ofKeyword "ON" true).normalized = "ON" from normalForm_on] at clause
  have opened' := same.trans opened
  let start := context.step (ofKeyword "ON" true)
  have compared : start.Resumes ((start.after condition).step equals) :=
    (TableSpots.resumes_dotted start true first [left]).trans (resumes_step ⟨by decide, nofun⟩)
  have ended : start.Resumes (((start.after condition).step equals).after other) :=
    compared.trans (TableSpots.resumes_dotted _ true second [right])
  have places : (JoinKey.on left right).places first second rest = [(left, String.intercalate "." [first, left])] ++
      ([(right, String.intercalate "." [second, right])] ++ rest.map fun name => (name, name)) := rfl
  rw [lexemes_on, Spots.filterMap_cons, mention?_of_other rfl rfl, spots_append, List.filterMap_append,
    mentions_column rfl clause opened' ⟨rfl, rfl⟩, Spots.filterMap_cons, mention?_of_other rfl rfl,
    spots_append, List.filterMap_append,
    mentions_column rfl (compared.clause.trans clause) (compared.opened.trans opened') (ends_more rest),
    mentions_more (ended.clause.trans clause) (ended.opened.trans opened'), places,
      mentionsOf_append, mentionsOf_append]
  rfl

/-- Without a parenthesis around them, names after USING are no columns. -/
theorem mentions_outside {part : List Lexeme} (clause : context.clause = some "USING") (closed : openings before = [])
    (wordless : ∀ lexeme ∈ part, lexeme.Wordless ∧ lexeme.isWildcard = false) :
    (spots context before part []).filterMap (Spot.mention? [] []) = [] := by
  induction part generalizing context before with
  | nil => rfl
  | cons lexeme part ih =>
    obtain ⟨bare, noWildcard⟩ := wordless lexeme List.mem_cons_self
    have resumes : context.Resumes (context.step lexeme) := resumes_step (staying_of_wordless bare)
    have nowhere : Spot.section? ⟨context, before, lexeme, part ++ []⟩ = none := by
      simp [Spot.section?, Spot.clause, Spot.opener, clause, closed]
    have here : Spot.mention? [] [] ⟨context, before, lexeme, part ++ []⟩ = none := by
      simp only [Spot.mention?, noWildcard, nowhere, Bool.false_eq_true, if_false, Option.map_none, ite_self]
    have closed' : openings (lexeme :: before) = [] := by rw [openings, bare.1]; exact closed
    rw [Spots.filterMap_cons, here, ih (resumes.clause.trans clause) closed' fun other member =>
      wordless other (List.mem_cons_of_mem _ member)]
    rfl

/-- The mentions of a condition after USING. The tables after it are none. -/
theorem mentions_using {name : String} (opened : context.opened = []) (headers : context.headers = [])
    (closed : openings before = []) :
    (spots context before (joinConditionLexemes (.columns name []) ++ moreLexemes rest) []).filterMap
      (Spot.mention? [] []) =
      mentionsOf ((JoinKey.columns name).places first second rest) := by
  let using' := ofKeyword "USING" true
  let started : Context := { context with last := some using', clause := some "USING", outside := false }
  have step : context.step using' = started := by
    rw [step_keyword (by decide) (by decide), headersAfter_other (by decide) (by decide)]
  have kind : started.parenKind = .columnDefinition := by
    have normal : using'.normalized = "USING" := by decide
    have words : Keyword.precedesSubquery "USING" = false ∧ Keyword.precedesColumns "USING" = true := by decide
    simp [Context.parenKind, started, headers, opened, normal, words, show using'.isKeyword = true from rfl,
      show using'.kind = .keyword from rfl]
  have inside : (started.step opening).clause = some "USING" ∧
      (started.step opening).opened = [⟨.columnDefinition, some "USING", false⟩] := by
    have side : opening.side? = some .opening := rfl
    have outer : started.opened = [] := opened
    simp only [Context.step, side, kind, outer]
    exact ⟨rfl, rfl⟩
  have outer : openings (opening :: using' :: before) = [using' :: before] := by
    rw [openings, show opening.side? = some .opening from rfl, openings, show using'.side? = none from rfl, closed]
  have sec : Spot.section? ⟨started.step opening, opening :: using' :: before, ofName name false,
      closing :: (moreLexemes rest ++ [])⟩ = some .join := by
    have word : using'.reads "USING" = true := by decide
    simp [Spot.section?, Spot.clause, Spot.opener, inside.1, outer, word]
  have ends : Halts (closing :: (moreLexemes rest ++ [])) := ⟨rfl, show closing.isPunctuation "(" = false by decide⟩
  have frames : ∀ frame ∈ (started.step opening).opened.head?, frame.kind ≠ .withColumns ∧
      frame.kind ≠ .createTableColumns := by
    rw [inside.2]
    simp
  have calm : Calm opening := (fresh_opening true).toCalm
  have here := @mention?_name _ _ _ _ [] calm ends frames name false [] rfl _ sec
  have resumes : started.Resumes (((started.step opening).step (ofName name false)).step closing) :=
    @resumes_group started [ofName name false] (by simp [show (ofName name false).side? = none from rfl]) true
  have parenthesis : openings (closing :: ofName name false :: opening :: using' :: before) = [] := by
    rw [openings, show closing.side? = some .closing from rfl, openings, show (ofName name false).side? =
      none from rfl, outer]
    rfl
  have later := mentions_outside resumes.clause parenthesis (wordless_more rest)
  have spelled : nameBefore (ofName name false :: opening :: using' :: before) = name :=
    nameBefore_undotted (undotted_cons rfl _) _
  rw [spelled, ofName_bare] at here
  change (spots context before (using' :: opening :: ofName name false :: closing :: moreLexemes rest) []).filterMap _ =
      _
  rw [Spots.filterMap_cons, mention?_of_other rfl rfl, step, Spots.filterMap_cons, mention?_of_other rfl rfl,
    Spots.filterMap_cons]
  rw [show closing :: moreLexemes rest ++ [] = closing :: (moreLexemes rest ++ []) from rfl, here, Spots.filterMap_cons,
    mention?_of_other rfl rfl, later, JoinKey.places, mentionsOf_cons]
  rfl

theorem mentions_star (lexemes after : List Lexeme) :
    (spots (Context.start lexemes) [] selectStar after).filterMap (Spot.mention? [] []) =
        [mentionOf ("*", .select)] := by
  have clause : ((Context.start lexemes).step (ofKeyword "SELECT" true)).clause = some "SELECT" := by
    rw [step_keyword normalForm_select (by decide)]
  have all :
      Spot.mention? [] [] ⟨(Context.start lexemes).step (ofKeyword "SELECT" true), [ofKeyword "SELECT" true], star,
      [ofKeyword "FROM" true] ++ after⟩ = some (mentionOf ("*", .select)) := by
    have spelled : nameBefore [star, ofKeyword "SELECT" true] = "*" := nameBefore_undotted (by decide) _
    have wildcard : star.isWildcard = true := rfl
    have noParen : (ofKeyword "SELECT" true).isPunctuation "(" = false := rfl
    simp [Spot.mention?, Spot.clause, Spot.previous, clause, spelled, wildcard, noParen, mentionOf]
  rw [selectStar, Spots.filterMap_cons, mention?_of_other rfl rfl, Spots.filterMap_cons, all,
    Spots.filterMap_cons, mention?_of_other rfl rfl]
  rfl

/-- The mentions of the statement: all columns, and those of the condition and after it. -/
theorem mentions_commaJoin : (spots (Context.start (commaJoin first second key rest).lexemes) []
    (commaJoin first second key rest).lexemes []).filterMap (Spot.mention? [] []) =
      (("*", .select) :: (key.found first second rest).map fun column => (column, .join)).map mentionOf := by
  let start := Context.start (commaJoin first second key rest).lexemes
  let joined := [ofName first true, ofKeyword "JOIN" true, ofName second true]
  let columns (word : String) : Bool := Keyword.precedesColumns word || word == "INTO"
  have avoids : (start.after selectStar).Avoids columns := by
    rw [after_selectStar]
    exact ⟨show columns "FROM" = false by decide, nofun⟩
  have none : ∀ lexeme ∈ joined, lexeme.Avoids columns := by
    have join : (ofKeyword "JOIN" true).Avoids columns := fun _ => .inr (by decide)
    simp only [joined, List.mem_cons, List.not_mem_nil, or_false, forall_eq_or_imp, forall_eq]
    exact ⟨nofun, join, nofun⟩
  have tables (before after : List Lexeme) :
      (spots (start.after selectStar) before joined after).filterMap (Spot.mention? [] []) = [] :=
    List.filterMap_eq_nil_iff.mpr fun spot member => mention?_of_clause (clause_of_avoids avoids none spot member)
  have condition (before : List Lexeme) (closed : openings before = []) :
      (spots ((start.after selectStar).after joined) before
      (joinConditionLexemes (key.condition first second) ++ moreLexemes rest) []).filterMap (Spot.mention? [] []) =
        mentionsOf (key.places first second rest) := by
    rw [after_joined]
    cases key with
    | on left right => exact mentions_on rfl
    | columns name => exact mentions_using rfl rfl closed
  have found : mentionsOf (key.places first second rest) =
      ((key.found first second rest).map fun column => (column, .join)).map mentionOf := by
    rw [mentionsOf, JoinKey.found, List.map_map, List.map_map]
    rfl
  have whole : (commaJoin first second key rest).lexemes = selectStar ++
    (joined ++ (joinConditionLexemes (key.condition first second) ++ moreLexemes rest)) := lexemes_commaJoin
  change (spots start [] (commaJoin first second key rest).lexemes []).filterMap _ = _
  rw [whole, spots_append, spots_append, List.filterMap_append, List.filterMap_append, mentions_star,
    tables, condition _ rfl, found]
  rfl

end Statement

section Declarations

/-- The clauses in which aliases of columns are declared. -/
def declaring (word : String) : Bool := Keyword.precedesColumns word && word != "USING"

theorem mayDeclare_of_clause {spot : Spot} (clause : declaring spot.clause = false) : spot.mayDeclare = false := by
  unfold declaring at clause
  rw [Spot.mayDeclare, Bool.and_assoc _ (Keyword.precedesColumns _), clause, Bool.and_false, Bool.false_and]

variable {context : Context} {before after part : List Lexeme}

theorem mayDeclare_of_avoids (avoids : context.Avoids declaring) (none : ∀ lexeme ∈ part, lexeme.Avoids declaring) :
    ∀ spot ∈ spots context before part after, spot.mayDeclare = false := fun spot member =>
  mayDeclare_of_clause (clause_of_avoids avoids none spot member)

/-- An alias comes after AS or a parenthesis, or in a select list. -/
theorem mayDeclare_of_wordless {word : String} (clause : context.clause = some word) (noSelect : word ≠ "SELECT")
    (first : ∀ last ∈ before.head?, last.reads "AS" = false ∧ last.isPunctuation ")" = false)
    (wordless : ∀ lexeme ∈ part, lexeme.Wordless) :
    ∀ spot ∈ spots context before part after, spot.mayDeclare = false := by
  intro spot member
  induction part generalizing context before with
  | nil => cases member
  | cons lexeme part ih =>
    have bare := wordless lexeme List.mem_cons_self
    rcases List.mem_cons.mp member with rfl | later
    · cases back : before.head? with
      | none => simp [Spot.mayDeclare, Spot.previous, Spot.clause, clause, noSelect, back]
      | some last => simp [Spot.mayDeclare, Spot.previous, Spot.clause, clause, noSelect, back, first last back]
    · refine ih ((resumes_step (staying_of_wordless bare)).clause.trans clause) (fun last found => ?_)
        (fun other inside => wordless other (List.mem_cons_of_mem _ inside)) later
      cases found
      exact ⟨reads_of_wordless bare "AS", closing_of_wordless bare⟩

variable {first second : String} {key : JoinKey} {rest : List String}

theorem undeclared_commaJoin : ∀ spot ∈ spots (Context.start (commaJoin first second key rest).lexemes) []
    (commaJoin first second key rest).lexemes [], spot.mayDeclare = false := by
  have head (after : List Lexeme) :
      ∀ spot ∈ spots (Context.start (commaJoin first second key rest).lexemes) [] selectStar after,
      spot.mayDeclare = false := by
    intro spot member
    simp only [selectStar, spots, List.mem_cons, List.not_mem_nil, or_false] at member
    rcases member with rfl | rfl | rfl <;> rfl
  have start : ((Context.start (commaJoin first second key rest).lexemes).after selectStar).Avoids declaring := by
    rw [after_selectStar]
    exact ⟨show declaring "FROM" = false by decide, List.forall_mem_nil _⟩
  have joined : ∀ lexeme ∈ [ofName first true, ofKeyword "JOIN" true, ofName second true], lexeme.Avoids declaring := by
    have join : (ofKeyword "JOIN" true).Avoids declaring := fun _ => .inr (by decide)
    simp only [List.mem_cons, List.not_mem_nil, or_false, forall_eq_or_imp, forall_eq]
    exact ⟨avoids_unkeyed rfl, join, avoids_unkeyed rfl⟩
  intro spot member
  rw [lexemes_commaJoin, spots_append, spots_append, ← lexemes_commaJoin, List.mem_append, List.mem_append] at member
  rcases member with member | member | member
  · exact head _ spot member
  · exact mayDeclare_of_avoids start joined spot member
  · cases key with
    | on left right =>
      have bare : ∀ lexeme ∈ qualifiedLexemes ⟨first, left, []⟩ ++
          equals :: (qualifiedLexemes ⟨second, right, []⟩ ++ moreLexemes rest), lexeme.Wordless := by
        intro lexeme member
        simp only [List.mem_append, List.mem_cons] at member
        rcases member with column | rfl | column | more
        · exact TableSpots.wordless_dotted true first [left] lexeme column
        · exact ⟨by decide, rfl⟩
        · exact TableSpots.wordless_dotted true second [right] lexeme column
        · exact (wordless_more rest lexeme more).1
      rw [JoinKey.condition, lexemes_on] at member
      rcases List.mem_cons.mp member with rfl | later
      · rfl
      · obtain ⟨clause, -⟩ := step_significant _ (ofKeyword "ON" true) rfl (by decide)
        rw [show (ofKeyword "ON" true).normalized = "ON" from normalForm_on] at clause
        refine mayDeclare_of_wordless clause (by decide) (fun last found => ?_) bare spot later
        cases found
        exact ⟨by decide, rfl⟩
    | columns name =>
      have using' : (ofKeyword "USING" true).Avoids declaring := fun _ => .inr (by decide)
      have none : ∀ lexeme ∈ joinConditionLexemes (.columns name []) ++ moreLexemes rest, lexeme.Avoids declaring := by
        intro lexeme member
        rcases List.mem_append.mp member with condition | more
        · rw [show joinConditionLexemes (.columns name []) =
            [ofKeyword "USING" true, opening, ofName name false, closing] from rfl] at condition
          simp only [List.mem_cons, List.not_mem_nil, or_false] at condition
          rcases condition with rfl | rfl | rfl | rfl
          · exact using'
          · exact avoids_unkeyed rfl
          · exact avoids_unkeyed rfl
          · exact avoids_unkeyed rfl
        · exact avoids_of_staying (staying_of_wordless (wordless_more rest lexeme more).1)
      exact mayDeclare_of_avoids (start.after joined) none spot member

end Declarations

section Facts

variable {first second : String} {key : JoinKey} {rest : List String} {limits : Limits}

theorem known_commaJoin (tables : ∀ name ∈ first :: second :: rest, IsPlainName name)
    (names : ∀ name ∈ key.names, IsPlainName name) :
    (commaJoin first second key rest).Known := by
  have reference {name : String} (member : name ∈ first :: second :: rest) :
      ({ first := name } : TableReference).Known :=
    ⟨fun part same => List.mem_singleton.mp same ▸ tables name member, nofun⟩
  have plain {name : String} (member : name ∈ first :: second :: rest) := tables name member
  refine ⟨reference List.mem_cons_self,
    List.forall_mem_cons.mpr ⟨⟨nofun, reference (by simp), ?_⟩, fun step member => ?_⟩⟩
  · intro condition found
    cases found
    cases key with
    | on left right =>
      intro comparison inside part member
      cases List.mem_singleton.mp inside
      simp only [QualifiedColumn.parts, List.cons_append, List.nil_append, List.mem_cons,
        List.not_mem_nil, or_false] at member
      rcases member with rfl | rfl | rfl | rfl
      · exact plain List.mem_cons_self
      · exact names _ List.mem_cons_self
      · exact plain (by simp)
      · exact names _ (by simp [JoinKey.names])
    | columns name => exact names
  · obtain ⟨name, inside, rfl⟩ := List.mem_map.mp member
    exact reference (List.mem_cons_of_mem _ (List.mem_cons_of_mem _ inside))

theorem counted_commaJoin : (commaJoin first second key rest).counted = [{ first }, { first := second }] := by
  have none (rest : List String) : FromStep.counted false (rest.map fun name => .comma { first := name }) = [] := by
    induction rest with
    | nil => rfl
    | cons name rest ih => exact ih
  simp only [FromClause.counted, commaJoin, FromStep.counted, FromStep.isComma, FromStep.condition?, FromStep.reference,
    Bool.false_and, Bool.false_eq_true, if_false, Option.isNone_some, none]

/-- The tables after the condition are no tables of the statement. After ON they are columns of it. -/
theorem comma_after_condition (tables : ∀ name ∈ first :: second :: rest, IsPlainName name)
    (names : ∀ name ∈ key.names, IsPlainName name)
    (apart : (first :: second :: rest).Nodup) (deep : (commaJoin first second key rest).depth ≤ limits.maxNestingDepth)
    (few : (commaJoin first second key rest).lexemes.length ≤ limits.maxTokens) :
    ∃ facts, (Query.ofText (commaJoin first second key rest).text limits).facts = .ok facts ∧
      facts.tables = [first, second] ∧
      facts.columns = distinct ("*" :: key.found first second rest) ∧
        (facts.tables = first :: second :: rest ↔ rest = []) := by
  have known := known_commaJoin tables names
  have references : (commaJoin first second key rest).counted.map TableReference.dotted = [first, second] := by
    rw [counted_commaJoin]
    rfl
  have named (table : String) (member : table ∈ [first, second]) : IsDottedName table :=
    ⟨table, [], fun part same => List.mem_singleton.mp same ▸ tables table (List.mem_append_left rest member), rfl⟩
  have found := finds_lexemes known named fun reference member => references ▸ List.mem_map_of_mem member
  rw [references, counted_commaJoin] at found
  have pair : [first, second].Nodup := apart.sublist (List.prefix_append [first, second] rest).sublist
  have once : distinct [first, second] = [first, second] := distinct_of_nodup pair
  obtain ⟨sequence, reading, kind⟩ := exists_selecting known deep few
  obtain ⟨noWith, noSelect⟩ := normalized_lexemes known
  obtain ⟨facts, read, tables', columns⟩ :=
    reading.exists_facts_columns kind noWith noSelect found.names (by rw [once]; exact found.aliases)
    undeclared_commaJoin mentions_commaJoin
  refine ⟨facts, read, tables'.trans once, columns.trans ?_, ?_⟩
  · rw [List.map_cons, List.map_map]
    exact congrArg (fun found => distinct ("*" :: found)) (List.map_id _)
  · rw [tables', once]
    simp

end Facts

/-- Two tables after a condition are columns, and no tables. -/
theorem comma_after_condition_on :
    ∃ facts, (Query.ofText "SELECT * FROM t1 JOIN t2 ON t1.x = t2.y, t3, t4" {}).facts = .ok facts ∧
    facts.tables = ["t1", "t2"] ∧ facts.columns = ["*", "t1.x", "t2.y", "t3", "t4"] := by
  have plain : ∀ name ∈ ["t1", "t2", "t3", "t4", "x", "y"], IsPlainName name := by
    have checked : ∀ name ∈ ["t1", "t2", "t3", "t4", "x", "y"], isIdentifier name.toList = true ∧
        Keyword.isReserved (upper name) = false ∧ Keyword.isReserved (Keyword.normalForm name) = false ∧
          Keyword.isJoin (Keyword.normalForm name) = false := by decide
    exact fun name member => isPlainName_of_joinless (checked name member)
  let key : JoinKey := .on "x" "y"
  have text :
      (commaJoin "t1" "t2" key ["t3", "t4"]).text = "SELECT * FROM t1 JOIN t2 ON t1.x = t2.y, t3, t4" := by decide
  have deep : (commaJoin "t1" "t2" key ["t3", "t4"]).depth ≤ ({} : Limits).maxNestingDepth := by decide
  have tables : ["t1", "t2", "t3", "t4"] ⊆ ["t1", "t2", "t3", "t4", "x", "y"] := by decide
  have columns : key.names ⊆ ["t1", "t2", "t3", "t4", "x", "y"] := by decide
  obtain ⟨facts, read, found, spelled, -⟩ := comma_after_condition (fun name member => plain name (tables member))
    (fun name member => plain name (columns member)) (by decide) deep (by decide)
  rw [text] at read
  exact ⟨facts, read, found, spelled.trans (by decide)⟩

end QueryFacts.Proofs.CommaAfterCondition

import QueryFacts.Proofs.Phrases
import QueryFacts.Proofs.TableSpots
import QueryFacts.Proofs.Unnested

/-! The tables and aliases of tables that a statement without queries has, by its words. A name is
a table where the last keyword comes before tables, no parenthesis has opened since, and the keyword
or a comma stands right before the name. A name right after a table is taken for its alias, in
parentheses as well. -/

namespace QueryFacts
open Text

/-- What the last keyword says of names. -/
structure NameView where
  /-- It comes before tables, so that a name may be the alias of one. -/
  listing : Bool
  /-- No parenthesis has opened since, so that a name may be a table. -/
  catching : Bool
  deriving DecidableEq

namespace NameView

def none : NameView := ⟨false, false⟩

def after (view : NameView) : Word → NameView
  | .keyword text =>
    if Keyword.isInsignificant text then view else ⟨Keyword.precedesTables text, Keyword.precedesTables text⟩
  | _ => view

def inside (view : NameView) : NameView := { view with catching := false }

end NameView

namespace Word

def name? : Word → Option String
  | .name text => some text
  | _ => none

def isAs : Word → Bool
  | .keyword text => text == "AS"
  | _ => false

/-- A table may stand right after it. -/
def introduces : Word → Bool
  | .keyword text => !Keyword.isInsignificant text || text == "EXISTS"
  | _ => false

end Word

namespace Phrase

def beginsAs : Phrase → Bool
  | .word first _ => first.isAs
  | _ => false

/-- All keywords, in parentheses as well. -/
def keywords : Phrase → List String
  | .done => []
  | .word (.keyword text) rest => text :: rest.keywords
  | .word _ rest | .operator _ rest | .comma rest => rest.keywords
  | .group _ inner rest => inner.keywords ++ rest.keywords

/-- The names in the places of tables. `starts` says that the first word stands in one. -/
def tables (view : NameView) (starts : Bool) : Phrase → List String
  | .done => []
  | .word first rest =>
    (if view.catching && starts then first.name? else none).toList ++ rest.tables (view.after first) first.introduces
  | .operator _ rest => rest.tables view false
  | .comma rest => rest.tables view true
  | .group _ inner rest => inner.tables view.inside true ++ rest.tables view false

/-- The names that are aliases if the names before them, or before AS, are tables. `previous` is the name before
the phrase, and `named` the one that its first word would be the alias of. -/
def labels (view : NameView) (previous named : Option String) : Phrase → List (String × String)
  | .done => []
  | .word first rest =>
    (if view.listing && !rest.beginsAs then first.name?.bind fun name => named.map fun table =>
      (name, table) else none).toList ++
      rest.labels (view.after first) first.name? (if first.isAs then previous else first.name?)
  | .operator _ rest => rest.labels view none none
  | .comma rest => rest.labels view none none
  | .group _ inner rest => inner.labels view.inside none none ++ rest.labels view none none

end Phrase

/-- What the context says of names. -/
def Context.view (context : Context) : NameView :=
  ⟨Keyword.precedesTables (context.clause.getD ""), Keyword.precedesTables (context.clause.getD "") && !context.outside⟩

namespace Lexeme

/-- A table may stand right after it. -/
def introducesTable (lexeme : Lexeme) : Bool :=
  lexeme.isPunctuation "(" || lexeme.isPunctuation ","
    || (lexeme.isKeyword && (!Keyword.isInsignificant lexeme.normalized || lexeme.normalized == "EXISTS"))

/-- The name that ends before another. -/
def previousName (before : List Lexeme) : Option String := before.head?.bind Proofs.SelectList.name?

/-- The name before another, which AS may stand between. -/
def aliasedName (before : List Lexeme) : Option String :=
  previousName (if before.head?.any (reads "AS") then before.tail else before)

end Lexeme

end QueryFacts

namespace QueryFacts.Proofs.PhraseTables
open Text Lexeme NestingRun PlainText SelectList ColumnListStatement Selections JoinKeywords Clauses Spots
open TableSpots Phrases Unnested

/-- A place in a phrase: what stands before it, and what the annotation knows there. -/
structure Placed (context : Context) (before : List Lexeme) : Prop where
  last : context.last = before.head?
  phrasal : ∀ lexeme ∈ before, lexeme.Phrasal
  clause : ∀ word ∈ context.clause, word ∈ Word.keywords ∧ Keyword.isInsignificant word = false
  current : ∀ last ∈ before.head?, last.isKeyword = true → Keyword.isInsignificant last.normalized = false →
    context.clause = some last.normalized
  opened : ∀ frame ∈ context.opened, frame.kind ≠ .subquery ∧
    ∀ word ∈ frame.clause, word ∈ Word.keywords ∧ Keyword.isInsignificant word = false

theorem placed_start (lexemes : List Lexeme) : Placed (Context.start lexemes) [] := ⟨rfl, nofun, nofun, nofun, nofun⟩

section Lexemes

variable {lexeme : Lexeme} (phrasal : lexeme.Phrasal)
include phrasal

theorem isDot_of_phrasal : lexeme.isDot = false := beq_eq_false_iff_ne.mpr (noDot_of_phrasal phrasal)

theorem normalized_of_phrasal (keyword : lexeme.isKeyword = true) : lexeme.normalized ∈ Word.keywords := by
  cases phrasal with
  | @keyword word known apart =>
    obtain ⟨-, -, same, -⟩ := keyword_facts _ known
    rw [show (ofKeyword word apart).normalized = word from same]
    exact known
  | @number digits _ apart => rcases ofNumeral_cases digits apart with same | same <;>
    rw [same] at keyword <;> cases keyword
  | _ => cases keyword

/-- Only names are spelled like names. -/
theorem unnamed_of_phrasal (noName : lexeme.isName = false) : ¬IsBareName lexeme.value := by
  intro bare
  have odd {c : Char} {rest : List Char} (letters : lexeme.value.toList = c :: rest)
      (other : Lexer.isIdentifierStart c = false) : False := by
    have spelled := bare.spelled
    rw [letters, isIdentifier, other] at spelled
    cases spelled
  cases phrasal with
  | @keyword word known apart =>
    obtain ⟨-, same, -, reserved, -⟩ := keyword_facts _ known
    have free : Keyword.isReserved (upper word) = false := bare.free
    rw [same, reserved] at free
    cases free
  | name => cases noName
  | @number digits spelled apart =>
    simp only [isNumeral, Bool.and_eq_true] at spelled
    cases letters : digits.toList with
    | nil => rw [letters] at spelled; cases spelled.1
    | cons c rest =>
      rw [letters] at spelled
      exact odd letters (isIdentifierStart_of_digit spelled.1)
  | string content quoted apart => exact odd quoted (by decide)
  | operator known apart =>
    have symbols : ∀ symbol ∈ Phrase.operators, isIdentifier symbol.toList = false := by decide
    cases (symbols _ known).symm.trans bare.spelled
  | comma => exact odd (c := ',') rfl (by decide)
  | opening => exact odd (show "(".toList = ['('] by decide) (by decide)
  | closing => exact odd (c := ')') rfl (by decide)

end Lexemes

section Places

variable {context : Context} {before : List Lexeme} (placed : Placed context before)
include placed

theorem Placed.undotted : ∀ last ∈ before.head?, last.isDot = false := fun last found =>
  isDot_of_phrasal (placed.phrasal last (List.mem_of_mem_head? found))

/-- No parenthesis in a phrase holds a sub-query. -/
theorem Placed.parenKind : context.parenKind ≠ .subquery := by
  have words : ∀ word ∈ Word.keywords, Keyword.precedesSubquery word = false := by decide
  refine Context.parenKind_ne_subquery fun last found => ?_
  cases keyword : last.isKeyword with
  | false => rfl
  | true =>
    have inside : last ∈ before.head? := placed.last ▸ found
    exact words _ (normalized_of_phrasal (placed.phrasal last (List.mem_of_mem_head? inside)) keyword)

theorem Placed.step {lexeme : Lexeme} (phrasal : lexeme.Phrasal) : Placed (context.step lexeme) (lexeme :: before) := by
  have kind := placed.parenKind
  obtain ⟨last, earlier, clause, current, opened⟩ := placed
  have all : ∀ other ∈ lexeme :: before, other.Phrasal := List.forall_mem_cons.mpr ⟨phrasal, earlier⟩
  cases side : lexeme.side? with
  | some side' =>
    have noKeyword : lexeme.isKeyword = false := by
      rw [Bool.eq_false_iff]
      intro keyword
      cases (side?_of_keyword keyword).symm.trans side
    have none (context : Context) : ∀ last ∈ (lexeme :: before).head?, last.isKeyword = true →
        Keyword.isInsignificant last.normalized = false → context.clause = some last.normalized := by
      intro last found keyword
      cases found
      cases noKeyword.symm.trans keyword
    cases side' with
    | opening =>
      simp only [Context.step, side]
      exact ⟨rfl, all, clause, none _, List.forall_mem_cons.mpr ⟨⟨kind, clause⟩, opened⟩⟩
    | closing =>
      simp only [Context.step, side]
      split
      · exact ⟨rfl, all, clause, none _, opened⟩
      next frame outer same =>
        rw [same] at opened
        obtain ⟨here, later⟩ := List.forall_mem_cons.mp opened
        exact ⟨rfl, all, here.2, none _, later⟩
  | none =>
    cases keyword : lexeme.isKeyword with
    | false =>
      have same : context.step lexeme = { context with last := some lexeme } := by simp [Context.step, side, keyword]
      rw [same]
      refine ⟨rfl, all, clause, fun last found word => ?_, opened⟩
      cases found
      cases keyword.symm.trans word
    | true =>
      have known := normalized_of_phrasal phrasal keyword
      cases significant : Keyword.isInsignificant lexeme.normalized with
      | true =>
        have same : context.step lexeme =
            { context with last := some lexeme, headers := context.headersAfter lexeme.normalized } := by
          simp [Context.step, side, keyword, significant]
        rw [same]
        refine ⟨rfl, all, clause, fun last found word counts => ?_, opened⟩
        cases found
        cases significant.symm.trans counts
      | false =>
        obtain ⟨begins, -, same⟩ := step_significant context lexeme keyword significant
        refine ⟨Context.last_step context lexeme, all, fun word found => ?_, fun last found _ _ => ?_, same ▸ opened⟩
        · cases found.symm.trans begins
          exact ⟨known, significant⟩
        · cases found
          exact begins

theorem Placed.after {part : List Lexeme} (phrasal : ∀ lexeme ∈ part, lexeme.Phrasal) :
    Placed (context.after part) (part.reverse ++ before) := by
  induction part generalizing context before with
  | nil => exact placed
  | cons lexeme part ih =>
    rw [List.reverse_cons, List.append_assoc]
    exact ih (placed.step (phrasal lexeme List.mem_cons_self)) fun other member =>
      phrasal other (List.mem_cons_of_mem _ member)

end Places

section Views

variable {context : Context}

theorem view_of_resumes {later : Context} (resumes : context.Resumes later) : later.view = context.view := by
  rw [Context.view, Context.view, resumes.clause, resumes.outside]

theorem view_opening (apart : Bool) : (context.step ⟨.punctuation, "(", none, apart⟩).view = context.view.inside := by
  have side : Lexeme.side? ⟨.punctuation, "(", none, apart⟩ = some .opening := rfl
  simp only [Context.view, Context.step, side, NameView.inside]
  cases context.clause with
  | none => rfl
  | some word => rw [Option.isSome_some, Bool.not_true, Bool.and_false]

private theorem staying_insignificant {word : String} (known : word ∈ Word.keywords)
    (insignificant : Keyword.isInsignificant word = true)
    (apart : Bool) : (ofKeyword word apart).Staying := by
  obtain ⟨-, -, same, -⟩ := keyword_facts _ known
  exact ⟨rfl, fun _ => by rw [show (ofKeyword word apart).normalized = word from same]; exact insignificant⟩

theorem staying_literal (value : Literal) (apart : Bool) : ∀ lexeme ∈ value.lexemes apart, lexeme.Staying := by
  intro lexeme member
  have words :
      ∀ word ∈ ["NULL", "TRUE", "FALSE"], word ∈ Word.keywords ∧ Keyword.isInsignificant word = true := by decide
  rcases literal_lexemes value apart lexeme member with kind | ⟨word, known, rfl⟩
  · exact ⟨flat_word (.literal value) apart lexeme member, fun keyword => absurd kind (by simp_all [isKeyword])⟩
  · exact staying_insignificant (words word known).1 (words word known).2 apart

theorem view_word {word : Word} (known : word.Known) (apart : Bool) :
    (context.after (word.lexemes apart)).view = context.view.after word := by
  cases word with
  | keyword text =>
    obtain ⟨-, -, same, -⟩ := keyword_facts _ known
    have normalized : (ofKeyword text apart).normalized = text := same
    change (context.step (ofKeyword text apart)).view = _
    rw [NameView.after]
    cases insignificant : Keyword.isInsignificant text with
    | true => exact view_of_resumes (resumes_step (staying_insignificant known insignificant apart))
    | false =>
      obtain ⟨clause, outside, -⟩ := step_significant context (ofKeyword text apart) rfl
        (by rw [normalized]; exact insignificant)
      rw [Context.view, clause, outside, normalized]
      simp
  | name text => exact view_of_resumes (resumes_step (⟨rfl, nofun⟩ : (ofName text apart).Staying))
  | literal value => exact view_of_resumes (resumes_after (staying_literal value apart))

/-- A phrase closes the parentheses that it opens. -/
theorem opened_phrase (phrase : Phrase) (glued : Bool) (context : Context) :
    (context.after (phrase.lexemes glued)).opened = context.opened := by
  induction phrase generalizing glued context with
  | done => rfl
  | word word rest ih => rw [Phrase.lexemes, Context.after_append, ih, opened_after (flat_word word _)]
  | operator symbol rest ih => exact ih false (context.step ⟨.operator, symbol, none, true⟩)
  | comma rest ih => exact ih false (context.step comma)
  | group apart inner rest ihInner ihRest =>
    have resumes := @resumes_level context (inner.lexemes true) (ihInner true) apart
    have split : Phrase.lexemes glued (.group apart inner rest) =
        ⟨.punctuation, "(", none, apart⟩ :: (inner.lexemes true ++ [closing]) ++ rest.lexemes false := by
      rw [Phrase.lexemes, List.cons_append, List.append_assoc]
      rfl
    rw [split, Context.after_append, ihRest, resumes.opened]

/-- After a phrase in parentheses the clause before it goes on. -/
theorem resumes_phrase (context : Context) (phrase : Phrase) (apart : Bool) :
    context.Resumes (((context.step ⟨.punctuation, "(", none, apart⟩).after (phrase.lexemes true)).step closing) := by
  have whole := @resumes_level context (phrase.lexemes true) (opened_phrase phrase true) apart
  rwa [Context.after, List.foldl_cons, List.foldl_append] at whole

end Views

section Names

variable {context : Context} {before after : List Lexeme} (placed : Placed context before)
    {name : String} {apart : Bool}
include placed

/-- What the last lexeme is where the clause is one of tables. -/
private theorem starts_eq {word : String} (clause : context.clause = some word) {last : Lexeme}
    (found : last ∈ before.head?) :
    ((last.normalized == word || last.reads "EXISTS" || last.isMark) && !last.isPunctuation ")") =
        last.introducesTable := by
  obtain ⟨known, significant⟩ := placed.clause word clause
  have phrasal := placed.phrasal last (List.mem_of_mem_head? found)
  cases keyword : last.isKeyword with
  | true =>
    have kind : last.kind = .keyword := by simpa [isKeyword] using keyword
    have noMark : last.isMark = false := by rw [isMark, isDot, kind]; rfl
    have noText (text : String) : last.isPunctuation text = false := by rw [isPunctuation, kind]; rfl
    cases insignificant : Keyword.isInsignificant last.normalized with
    | true =>
      have other : (last.normalized == word) = false := by
        rw [beq_eq_false_iff_ne]
        intro same
        rw [same, significant] at insignificant
        cases insignificant
      simp [introducesTable, reads, noMark, noText, keyword, insignificant, other]
    | false =>
      have same : last.normalized = word :=
        Option.some.inj ((placed.current last found keyword insignificant).symm.trans clause)
      simp [introducesTable, noText, keyword, same, significant]
  | false =>
    have unread := unread_of_phrasal phrasal keyword
    have other : (last.normalized == word) = false := by
      rw [beq_eq_false_iff_ne]
      intro same
      obtain ⟨-, -, -, reserved, -⟩ := keyword_facts word known
      rw [same, reserved] at unread
      cases unread
    simp only [introducesTable, reads, keyword, other, Bool.false_and, Bool.or_false, Bool.false_or]
    cases phrasal with
    | keyword => cases keyword
    | @number digits _ apart => rcases ofNumeral_cases digits apart with same | same <;> rw [same] <;> rfl
    | name | string | operator => rfl
    | comma => decide
    | opening => rfl
    | closing => decide

theorem table?_name (ends : after.head?.any isDot = false) : Spot.table? ⟨context, before, ofName name apart, after⟩ =
    if context.view.catching && before.head?.any introducesTable then some name else none := by
  have isName : (ofName name apart).isName = true := rfl
  have column : Spot.isInColumnList ⟨context, before, ofName name apart, after⟩ = context.outside := by
    rw [Spot.isInColumnList]
    cases opened : context.opened.head? with
    | none => simp
    | some frame => simp [(placed.opened frame (List.mem_of_mem_head? opened)).1]
  have words : ∀ last ∈ before.head?, last.reads "WITH" = false := by
    intro last found
    cases keyword : last.isKeyword with
    | false => rw [reads, keyword, Bool.false_and]
    | true =>
      have known := normalized_of_phrasal (placed.phrasal last (List.mem_of_mem_head? found)) keyword
      have noWith : ∀ word ∈ Word.keywords, (word == "WITH") = false := by decide
      rw [reads, keyword, Bool.true_and]
      exact noWith _ known
  have undotted := placed.undotted
  cases listing : Keyword.precedesTables (context.clause.getD "") with
  | false => simp [Spot.table?, Spot.clause, Context.view, listing]
  | true =>
    obtain ⟨word, clause⟩ : ∃ word, context.clause = some word := by
      cases clause : context.clause with
      | some word => exact ⟨word, rfl⟩
      | none => rw [clause] at listing; exact absurd listing (by decide)
    cases outside : context.outside with
    | true => simp [Spot.table?, column, Context.view, outside]
    | false =>
      cases head : before.head? with
      | none =>
        have noClause : ("" == word) = false := by
          rw [clause] at listing
          rw [beq_eq_false_iff_ne]
          rintro rfl
          exact absurd listing (by decide)
        simp [Spot.table?, Spot.clause, Spot.previous, head, clause, noClause]
      | some last =>
        have starts := starts_eq placed clause head
        have noDot := undotted last head
        cases as : last.reads "AS" with
        | true =>
          have nothing : last.introducesTable = false := by
            obtain ⟨keyword, same⟩ := (Bool.and_eq_true _ _).mp as
            rw [beq_iff_eq] at same
            have kind : last.kind = .keyword := by simpa [isKeyword] using keyword
            have words : Keyword.isInsignificant "AS" = true := by decide
            rw [introducesTable, same, words, isPunctuation, isPunctuation, kind]
            simp
          simp [Spot.table?, Spot.previous, head, as, nothing]
        | false =>
          simp only [Spot.table?, Spot.clause, Spot.previous, Spot.next, isName, column, outside,
            clause, head, words last head, as, ends, noDot, Option.getD_some, Option.any_some,
            Option.map_some, Context.view, Bool.not_true, Bool.or_self, Bool.false_eq_true,
            if_false, Bool.false_or, Bool.not_false, Bool.and_true, starts]
          rw [clause, Option.getD_some] at listing
          simp [listing]
          rfl

variable {tables : List String} (named : ∀ table ∈ tables, IsBareName table)
include named

omit placed in
/-- Only a name that ends before another can be one of the tables. -/
private theorem listed_before {front : List Lexeme} (phrasal : ∀ lexeme ∈ front, lexeme.Phrasal) (table : String) :
    (nameBefore front = table ∧ table ∈ tables) ↔ (previousName front = some table ∧ table ∈ tables) := by
  refine and_congr_left fun listed => ?_
  have bare := named table listed
  cases front with
  | nil =>
    refine ⟨fun same => ?_, fun found => by cases found⟩
    have spelled := bare.spelled
    rw [← same] at spelled
    cases spelled
  | cons last front =>
    have undotted : ∀ other ∈ front.head?, other.isDot = false := fun other found =>
      isDot_of_phrasal (phrasal other (List.mem_cons_of_mem _ (List.mem_of_mem_head? found)))
    rw [nameBefore_undotted undotted, previousName, List.head?_cons, Option.bind_some, name?]
    cases isName : last.isName with
    | true =>
      have kind : last.kind = .name := by simpa [Lexeme.isName] using isName
      simp [kind]
    | false =>
      have kind : last.kind ≠ .name := by simpa [Lexeme.isName] using isName
      rw [if_neg kind]
      refine ⟨fun same => ?_, fun found => by cases found⟩
      exact absurd (same ▸ bare) (unnamed_of_phrasal (phrasal last List.mem_cons_self) isName)

theorem alias?_name (ends : after.head?.any isDot = false) :
    Spot.alias? tables ⟨context, before, ofName name apart, after⟩ =
      (if context.view.listing && !after.head?.any (reads "AS") then
        (aliasedName before).bind fun table => if tables.contains table then some (name, table) else none
      else none) := by
  have isName : (ofName name apart).isName = true := rfl
  have noDot : before.head?.any isDot = false := by
    cases head : before.head? with
    | none => rfl
    | some last => exact placed.undotted last head
  let front := if before.head?.any (reads "AS") then before.tail else before
  have phrasal : ∀ lexeme ∈ front, lexeme.Phrasal := by
    intro lexeme member
    change lexeme ∈ (if before.head?.any (reads "AS") then before.tail else before) at member
    split at member
    · exact placed.phrasal lexeme (List.mem_of_mem_tail member)
    · exact placed.phrasal lexeme member
  have aliased : (if tables.contains (nameBefore front) then some (name, nameBefore front) else none) =
      (previousName front).bind fun table => if tables.contains table then some (name, table) else none := by
    have listed := listed_before named phrasal
    simp only [List.contains_iff_mem]
    by_cases member : nameBefore front ∈ tables
    · rw [if_pos member, ((listed _).mp ⟨rfl, member⟩).1, Option.bind_some, if_pos member]
    · rw [if_neg member]
      cases previous : previousName front with
      | none => rfl
      | some table =>
        rw [Option.bind_some, if_neg fun inside => member ?_]
        rw [((listed table).mpr ⟨previous, inside⟩).1]
        exact inside
  have spot : Spot.aliased ⟨context, before, ofName name apart, after⟩ = nameBefore front := rfl
  rw [aliasedName]
  change _ = if _ then (previousName front).bind _ else none
  rw [← aliased]
  simp only [Spot.alias?, spot, Spot.clause, Spot.previous, Spot.next, isName, noDot, ends,
    Context.view, Bool.not_true, Bool.or_false, Bool.false_or]
  by_cases listing : Keyword.precedesTables (context.clause.getD "") = true <;>
    by_cases as : after.head?.any (reads "AS") = true <;> simp [listing, as]
  rfl

end Names

section Phrases

variable {tables : List String} {context : Context} {before after : List Lexeme}

theorem finds_nameless {part : List Lexeme} (nameless : ∀ lexeme ∈ part, lexeme.isName = false) :
    Finds tables context before part after [] [] := by
  induction part generalizing context before with
  | nil => exact ⟨rfl, rfl⟩
  | cons lexeme part ih =>
    exact .skip (silent_of_other (nameless lexeme List.mem_cons_self)) (ih fun other member =>
      nameless other (List.mem_cons_of_mem _ member))

theorem nameless_literal (value : Literal) (apart : Bool) : ∀ lexeme ∈ value.lexemes apart, lexeme.isName = false := by
  intro lexeme member
  rcases literal_lexemes value apart lexeme member with kind | ⟨word, -, rfl⟩
  · rw [isName, beq_eq_false_iff_ne]
    exact fun same => absurd (same ▸ kind) (by decide)
  · rfl

/-- The first and the last lexeme of a literal say nothing of the names around it. -/
private theorem inert_literal (value : Literal) (apart : Bool) : ∀ lexeme ∈ value.lexemes apart,
    lexeme.introducesTable = false ∧ name? lexeme = none ∧ lexeme.reads "AS" = false := by
  intro lexeme member
  have words : ∀ word ∈ ["NULL", "TRUE", "FALSE"],
      (ofKeyword word apart).introducesTable = false ∧ (ofKeyword word apart).reads "AS" = false := by
    cases apart <;> decide
  rcases literal_lexemes value apart lexeme member with kind | ⟨word, known, rfl⟩
  · have noMark (text : String) : lexeme.isPunctuation text = false := by
      cases same : lexeme.kind <;> simp_all [isPunctuation]
    have noKeyword : lexeme.isKeyword = false := by cases same : lexeme.kind <;> simp_all [isKeyword]
    have noName : lexeme.kind ≠ .name := by rintro same; rw [same] at kind; exact absurd kind (by decide)
    exact ⟨by simp [introducesTable, noMark, noKeyword], if_neg noName, by rw [reads, noKeyword, Bool.false_and]⟩
  · exact ⟨(words word known).1, rfl, (words word known).2⟩

private theorem inert_keyword {text : String} (known : text ∈ Word.keywords) (apart : Bool) :
    (ofKeyword text apart).introducesTable = (Word.keyword text).introduces ∧
        (ofKeyword text apart).reads "AS" = (text == "AS") := by
  obtain ⟨-, -, same, -⟩ := keyword_facts _ known
  have normalized : (ofKeyword text apart).normalized = text := same
  rw [introducesTable, reads, normalized]
  exact ⟨rfl, rfl⟩

/-- What the end of a word says of the name after it. -/
theorem exists_last {word : Word} (known : word.Known) (apart : Bool) (before : List Lexeme) :
    ∃ last front, (word.lexemes apart).reverse ++ before = last :: front ∧ last.introducesTable = word.introduces ∧
      name? last = word.name? ∧ last.reads "AS" = word.isAs ∧ (word.isAs = true → front = before) := by
  cases word with
  | keyword text =>
    obtain ⟨introduces, as⟩ := inert_keyword known apart
    exact ⟨_, before, rfl, introduces, rfl, as, fun _ => rfl⟩
  | name text => exact ⟨_, before, rfl, rfl, rfl, rfl, nofun⟩
  | literal value =>
    have some : value.lexemes apart ≠ [] := by
      cases value with
      | number negative => cases negative <;> exact List.cons_ne_nil _ _
      | string | null | truth => exact List.cons_ne_nil _ _
    obtain ⟨front, last, split⟩ : ∃ front last, value.lexemes apart = front ++ [last] :=
      ⟨_, _, (List.dropLast_append_getLast some).symm⟩
    obtain ⟨introduces, noName, noAs⟩ := inert_literal value apart last (by rw [split]; simp)
    exact ⟨last, front.reverse ++ before, by rw [Word.lexemes, split]; simp, introduces, noName, noAs, nofun⟩

theorem beginsAs_phrase {phrase : Phrase} (known : phrase.Known)
    (ends : after.head?.any (reads "AS") = false) (glued : Bool) :
    (phrase.lexemes glued ++ after).head?.any (reads "AS") = phrase.beginsAs := by
  cases phrase with
  | done => exact ends
  | word word rest =>
    cases word with
    | keyword text => exact (inert_keyword known.1 _).2
    | name text => rfl
    | literal value =>
      have first : ∀ lexeme ∈ (value.lexemes (!glued)).head?, lexeme.reads "AS" = false := fun lexeme found =>
        (inert_literal value _ lexeme (List.mem_of_mem_head? found)).2.2
      rw [Phrase.lexemes, Word.lexemes, List.append_assoc]
      cases value with
      | number negative => cases negative <;> exact first _ rfl
      | string | null | truth => exact first _ rfl
  | operator | comma | group => rfl

theorem noDot_phrase {phrase : Phrase} (known : phrase.Known) (ends : after.head?.any isDot = false) (glued : Bool) :
    (phrase.lexemes glued ++ after).head?.any isDot = false := by
  cases begins : phrase.lexemes glued with
  | nil => exact ends
  | cons first rest => exact isDot_of_phrasal (phrasal_phrase known glued first (begins ▸ List.mem_cons_self))

/-- The pairs of which the second is a table. -/
private def among (tables : List String) (pairs : List (String × String)) : List (String × String) :=
  pairs.filter fun pair => tables.contains pair.2

private theorem among_append (pairs more : List (String × String)) :
    among tables (pairs ++ more) = among tables pairs ++ among tables more :=
  List.filter_append ..

variable (named : ∀ table ∈ tables, IsBareName table)
include named

theorem finds_word (placed : Placed context before) (word : Word) (apart : Bool)
    (ends : after.head?.any isDot = false) :
    Finds tables context before (word.lexemes apart) after
      (if context.view.catching && before.head?.any introducesTable then word.name? else none).toList
      (among tables (if context.view.listing && !after.head?.any (reads "AS") then
        word.name?.bind fun name => (aliasedName before).map fun table => (name, table) else none).toList) := by
  cases word with
  | keyword text =>
    have nothing : Finds tables context before [ofKeyword text apart] after [] [] := .silent (silent_of_other rfl)
    simpa [Word.name?, Word.lexemes, among] using nothing
  | literal value =>
    have nothing : Finds tables context before (value.lexemes apart) after [] [] :=
      finds_nameless (nameless_literal value apart)
    simpa [Word.name?, Word.lexemes, among] using nothing
  | name text =>
    have found : Finds tables context before [ofName text apart] after _ _ :=
      .single (table?_name placed ends) (alias?_name placed named ends)
    refine ⟨found.names, found.aliases.trans ?_⟩
    cases (context.view.listing && !after.head?.any (reads "AS")) with
    | false => rfl
    | true =>
      cases aliasedName before with
      | none => rfl
      | some table =>
        by_cases listed : table ∈ tables <;> simp [Word.name?, among, listed]

/-- What the passes find in a phrase. -/
theorem finds_phrase {phrase : Phrase} (known : phrase.Known) (glued : Bool) (placed : Placed context before)
    (ends : after.head?.any isDot = false ∧ after.head?.any (reads "AS") = false) :
    Finds tables context before
      (phrase.lexemes glued) after (phrase.tables context.view (before.head?.any introducesTable))
      (among tables (phrase.labels context.view (previousName before) (aliasedName before))) := by
  induction phrase generalizing context before glued after with
  | done => exact ⟨rfl, rfl⟩
  | word word rest ih =>
    obtain ⟨knownWord, -, knownRest⟩ := known
    have here := finds_word named placed word (!glued) (noDot_phrase knownRest ends.1 false)
    rw [beginsAs_phrase knownRest ends.2] at here
    have later := ih knownRest false (placed.after (phrasal_word knownWord (!glued))) ends
    obtain ⟨last, front, split, introduces, name, as, same⟩ := exists_last knownWord (!glued) before
    have previous : previousName (last :: front) = word.name? := name
    have aliased : aliasedName (last :: front) = if word.isAs then previousName before else word.name? := by
      rw [aliasedName, List.head?_cons, Option.any_some, as]
      cases isAs : word.isAs with
      | true => rw [if_pos rfl, if_pos rfl, List.tail_cons, same isAs]
      | false => rw [if_neg Bool.false_ne_true, if_neg Bool.false_ne_true, previous]
    rw [view_word knownWord, split, List.head?_cons, Option.any_some, introduces, previous, aliased, ← split] at later
    rw [Phrase.lexemes, Phrase.tables, Phrase.labels, among_append]
    exact here.append later
  | operator symbol rest ih =>
    have phrasal : Lexeme.Phrasal ⟨.operator, symbol, none, true⟩ := .operator known.1 true
    have resumes : context.Resumes (context.step ⟨.operator, symbol, none, true⟩) :=
      resumes_step (staying_of_wordless ⟨rfl, rfl⟩)
    have later := ih known.2.2 false (placed.step phrasal) ends
    rw [view_of_resumes resumes] at later
    exact .skip (silent_of_other rfl) later
  | comma rest ih =>
    have resumes : context.Resumes (context.step comma) := resumes_step (staying_of_wordless ⟨rfl, rfl⟩)
    have later := ih known false (placed.step .comma) ends
    rw [view_of_resumes resumes] at later
    exact .skip (silent_of_other rfl) later
  | group apart inner rest ihInner ihRest =>
    let opening : Lexeme := ⟨.punctuation, "(", none, apart⟩
    have opened : Placed (context.step opening) (opening :: before) := placed.step (.opening apart)
    have ended : (closing :: (rest.lexemes false ++ after)).head?.any isDot = false ∧
        (closing :: (rest.lexemes false ++ after)).head?.any (reads "AS") = false := ⟨rfl, rfl⟩
    have inside := ihInner known.1 true opened ended
    have closed := (opened.after (phrasal_phrase known.1 true)).step .closing
    have resumes := resumes_phrase context inner apart
    have later := ihRest known.2 false closed ends
    rw [view_opening] at inside
    rw [view_of_resumes resumes] at later
    rw [Phrase.lexemes, Phrase.tables, Phrase.labels, among_append]
    exact .skip (silent_of_other rfl) (inside.append (.skip (silent_of_other rfl) later))

end Phrases

section Statements

variable {limits : Limits} {first : String} {rest : Phrase}

section Calls

variable (known : (Phrase.word (.keyword first) rest).KnownCalls)
include known

theorem exists_reading_phrase (deep : (Phrase.word (.keyword first) rest).depth ≤ limits.maxNestingDepth)
    (few : ((Phrase.word (.keyword first) rest).lexemes false).length ≤ limits.maxTokens) :
    ∃ sequence, Reading limits (Phrase.word (.keyword first) rest).text
        ((Phrase.word (.keyword first) rest).lexemes false) sequence := by
  have endless (lexeme : Lexeme) (member : lexeme ∈ (Phrase.word (.keyword first) rest).lexemes false) :
      lexeme.isWord "JOIN" = false ∧ lexeme.isWord "BY" = false := by
    rcases phrasal_or_called known false lexeme member with phrasal | ⟨name, apart, rfl, -⟩
    · exact endless_of_phrasal phrasal
    · exact ⟨rfl, rfl⟩
  exact exists_reading (readable_phrase known) (mergeCompounds_endless endless) (shallow_phrase _ false) deep few

theorem queryless_phrase (word : String) (query : word = "WITH" ∨ word = "SELECT") :
    ∀ lexeme ∈ (Phrase.word (.keyword first) rest).lexemes false, lexeme.normalized ≠ word := by
  intro lexeme member same
  rcases phrasal_or_called known false lexeme member with phrasal | called
  · have words : ∀ word ∈ ["WITH", "SELECT"], Keyword.isReserved word = true ∧ word ∉ Word.keywords := by decide
    obtain ⟨reserved, other⟩ := words word (by simpa using query)
    cases keyword : lexeme.isKeyword with
    | true => exact other (same ▸ normalized_of_phrasal phrasal keyword)
    | false =>
      have unread := unread_of_phrasal phrasal keyword
      rw [same, reserved] at unread
      cases unread
  · obtain ⟨noWith, noSelect⟩ := queryless_of_called called
    rcases query with rfl | rfl
    · exact noWith same
    · exact noSelect same

end Calls

variable (known : (Phrase.word (.keyword first) rest).Known)
include known

omit known in
/-- In a phrase the parentheses around it stay open. -/
theorem enclosed_phrase (phrase : Phrase) (glued : Bool) {context : Context} {before after : List Lexeme} :
    ∀ spot ∈ spots context before (phrase.lexemes glued) after, context.opened <:+ spot.context.opened := by
  intro spot member
  induction phrase generalizing glued context before after with
  | done => cases member
  | word word rest ih =>
    rw [Phrase.lexemes, spots_append] at member
    rcases List.mem_append.mp member with here | later
    · exact (opened_spots (flat_word word _) spot here).symm ▸ List.suffix_refl _
    · exact @opened_after context _ (flat_word word _) ▸ ih false later
  | operator symbol rest ih =>
    have resumes : context.Resumes (context.step ⟨.operator, symbol, none, true⟩) :=
      resumes_step (staying_of_wordless ⟨rfl, rfl⟩)
    rcases List.mem_cons.mp member with rfl | later
    · exact List.suffix_refl _
    · exact resumes.opened ▸ ih false later
  | comma rest ih =>
    have resumes : context.Resumes (context.step comma) := resumes_step (staying_of_wordless ⟨rfl, rfl⟩)
    rcases List.mem_cons.mp member with rfl | later
    · exact List.suffix_refl _
    · exact resumes.opened ▸ ih false later
  | group apart inner rest ihInner ihRest =>
    let opening : Lexeme := ⟨.punctuation, "(", none, apart⟩
    have pushed : context.opened <:+ (context.step opening).opened := List.suffix_cons _ _
    have resumes := resumes_phrase context inner apart
    rcases List.mem_cons.mp member with rfl | member
    · exact List.suffix_refl _
    · rw [spots_append] at member
      rcases List.mem_append.mp member with inside | member
      · exact pushed.trans (ihInner true inside)
      · rcases List.mem_cons.mp member with rfl | later
        · exact (opened_phrase inner true (context.step opening)).symm ▸ pushed
        · exact resumes.opened ▸ ihRest false later

omit known in
/-- Without keywords before tables there are no tables. -/
theorem tables_of_quiet {phrase : Phrase}
    (quiet : ∀ text ∈ phrase.keywords, Keyword.precedesTables text = false) {view : NameView}
    (uncaught : view.catching = false) (starts : Bool) : phrase.tables view starts = [] := by
  induction phrase generalizing view starts with
  | done => rfl
  | word word rest ih =>
    rw [Phrase.tables, uncaught, Bool.false_and, if_neg Bool.false_ne_true]
    cases word with
    | keyword text =>
      obtain ⟨here, later⟩ := List.forall_mem_cons.mp quiet
      refine ih later ?_ _
      rw [NameView.after, here]
      split
      · exact uncaught
      · rfl
    | name | literal => exact ih quiet uncaught _
  | operator symbol rest ih => exact ih quiet uncaught false
  | comma rest ih => exact ih quiet uncaught true
  | group apart inner rest ihInner ihRest =>
    obtain ⟨inside, later⟩ := List.forall_mem_append.mp quiet
    rw [Phrase.tables, ihInner inside rfl, ihRest later uncaught, List.append_nil]

omit known in
theorem bare_tables {phrase : Phrase} (known : phrase.Known) (view : NameView) (starts : Bool) :
    ∀ table ∈ phrase.tables view starts, IsBareName table := by
  induction phrase generalizing view starts with
  | done => nofun
  | word word rest ih =>
    intro table member
    rcases List.mem_append.mp member with here | later
    · have name : word.name? = some table := by
        split at here
        · exact Option.mem_toList.mp here
        · cases here
      cases word with
      | name text =>
        cases name
        exact known.1
      | keyword | literal => cases name
    · exact ih known.2.2 _ _ table later
  | operator symbol rest ih => exact ih known.2.2 view false
  | comma rest ih => exact ih known view true
  | group apart inner rest ihInner ihRest =>
    intro table member
    exact (List.mem_append.mp member).elim (ihInner known.1 _ _ table) (ihRest known.2 _ _ table)

/-- The tables of a statement are the names in their places, and its aliases are the names right after these. -/
theorem exists_facts_phrase {sequence : TokenSequence}
    (reading : Reading limits (Phrase.word (.keyword first) rest).text
      ((Phrase.word (.keyword first) rest).lexemes false) sequence)
    {kind : StatementKind} (kinds : StatementKind.ofTokens sequence = .ok kind)
    (defined : (kind == .create && definesTableByQuery sequence) = false) :
    ∃ facts, (Query.ofText (Phrase.word (.keyword first) rest).text limits).facts = .ok facts ∧
      facts.tables = distinct ((Phrase.word (.keyword first) rest).tables .none false) ∧
        facts.tableAliases = NameMap.ofPairs (((Phrase.word (.keyword first) rest).labels .none none none).filter
          fun pair => facts.tables.contains pair.2) := by
  let phrase := Phrase.word (.keyword first) rest
  have bare : ∀ table ∈ distinct (phrase.tables .none false), IsBareName table := fun table member =>
    bare_tables known _ _ table (mem_distinct.mp member)
  have ends : ([] : List Lexeme).head?.any isDot = false ∧ ([] : List Lexeme).head?.any (reads "AS") = false :=
    ⟨rfl, rfl⟩
  have found := finds_phrase bare known false (placed_start (phrase.lexemes false)) ends
  have view : (Context.start (phrase.lexemes false)).view = .none := by
    change (⟨Keyword.precedesTables "", Keyword.precedesTables "" && true⟩ : NameView) = .none
    decide
  rw [view] at found
  obtain ⟨facts, read, tables, aliases⟩ :=
    reading.exists_facts kinds defined (queryless_phrase known.calls "WITH" (.inl rfl))
    (fun lexeme member =>
      queryless_phrase known.calls "SELECT" (.inr rfl) lexeme (List.mem_of_mem_tail member)) found.names
  refine ⟨facts, read, tables, aliases.trans ?_⟩
  rw [tables]
  exact congrArg NameMap.ofPairs found.aliases

end Statements

end QueryFacts.Proofs.PhraseTables

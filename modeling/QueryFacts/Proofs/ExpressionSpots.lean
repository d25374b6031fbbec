import QueryFacts.Proofs.Expressions
import QueryFacts.Proofs.MentionSpots

/-! What the expressions of a select list offer to it. Each of their columns is mentioned, however deep it
stands in parentheses. A label after an expression is for the names that the scan knows, and there a function
that is called counts as much as a column that is spelled like it. -/

namespace QueryFacts
open Lexeme

/-- In a select list, in parentheses or not. No sub-query is open. -/
structure Context.Projecting (context : Context) : Prop where
  clause : context.clause = some "SELECT"
  opened : ∀ frame ∈ context.opened, (frame.kind = .columnDefinition ∨ frame.kind = .nestedFunction) ∧
    frame.clause = some "SELECT"
  headers : context.headers = []
  noColumns : context.awaitsColumns = false
  last : ∀ last ∈ context.last, (last.isKeyword && Keyword.precedesSubquery last.normalized) = false

/-- The columns that a mark adds to those that a label is for. -/
def AliasDeclaration.Scope.meant (scope : Scope) (mark : Mark) : List String :=
  if mark.isWildcard || scope.known.contains mark.name || scope.names.contains mark.name then
    (scope.known.find? mark.name).getD [mark.name]
  else []

/-- The marks of a part of a select list: its names are the columns among them, none of which is a label, and to
the columns of its item it adds what the scope knows of them. -/
structure Offers (scope : AliasDeclaration.Scope) (context : Context) (before part after : List Lexeme)
    (marks : List Mark) : Prop where
  names : Names scope context before part after
    (Column.Mention.ofNames scope.names .select (marks.filterMap Mark.column?)) []
  covers : scope.itemBefore after.head? (part.reverse ++ before) =
    scope.itemBefore (part ++ after).head? before ++ marks.flatMap scope.meant

end QueryFacts

namespace QueryFacts.Proofs.ExpressionSpots
open Lexeme Expression SelectList ColumnListStatement Spots ColumnSpots MentionSpots Expressions

variable {scope : AliasDeclaration.Scope} {context : Context} {before after : List Lexeme} {last here : Lexeme}

section Places

variable {bound : Nat} {part : List Lexeme}

private theorem parenKind_projecting (projecting : context.Projecting) :
    context.parenKind = .columnDefinition ∨ context.parenKind = .nestedFunction := by
  unfold Context.parenKind
  cases before : context.last with
  | none => exact .inr rfl
  | some last =>
    have noQuery := projecting.last last before
    simp only [noQuery, projecting.headers, projecting.noColumns, List.head?_nil, Bool.false_and,
      Bool.false_eq_true, if_false, show (none == some context.opened.length) = false from rfl]
    split
    · exact .inl rfl
    · split
      · exact .inl rfl
      · exact .inr rfl

/-- A keyword that stays within a clause holds no sub-query and begins no query. -/
private theorem plain_of_insignificant {word : String} (stays : Keyword.isInsignificant word = true) :
    Keyword.precedesSubquery word = false ∧ (word == "WITH") = false ∧ Keyword.startsStatement word = false := by
  have all : ∀ word ∈ Keyword.insignificant, Keyword.precedesSubquery word = false ∧ (word == "WITH") = false ∧
      Keyword.startsStatement word = false := by decide
  exact all word (List.contains_iff_mem.mp stays)

/-- Only parentheses matter in a select list, and it goes on after each of them. -/
theorem projecting_step (projecting : context.Projecting)
    (stays : here.isKeyword = true → Keyword.isInsignificant here.normalized = true) :
    (context.step here).Projecting := by
  have noQuery : ∀ last ∈ some here, (last.isKeyword && Keyword.precedesSubquery last.normalized) = false := by
    intro last same
    obtain rfl := Option.some.inj same
    cases keyword : here.isKeyword with
    | false => rfl
    | true => rw [(plain_of_insignificant (stays keyword)).1]; rfl
  obtain ⟨clause, opened, headers, noColumns, -⟩ := id projecting
  unfold Context.step
  split
  · refine ⟨clause, List.forall_mem_cons.mpr ⟨⟨parenKind_projecting projecting, clause⟩, opened⟩, headers, ?_, noQuery⟩
    rw [noColumns, Bool.false_and]
  · split
    · exact ⟨clause, opened, headers, noColumns, noQuery⟩
    next frame outer frames =>
      rw [frames] at opened
      obtain ⟨here, later⟩ := List.forall_mem_cons.mp opened
      exact ⟨here.2, later, by rw [headers]; rfl, noColumns, noQuery⟩
  · split
    next keyword =>
      obtain ⟨-, noWith, begins⟩ := plain_of_insignificant (stays keyword)
      have same : context.headersAfter here.normalized = context.headers := by
        simp only [Context.headersAfter, noWith, begins, Bool.false_and, Bool.false_eq_true, if_false]
      exact ⟨by rw [if_pos (stays keyword), clause], opened, by rw [same, headers], noColumns, noQuery⟩
    · exact ⟨clause, opened, headers, noColumns, noQuery⟩

theorem projecting_after (projecting : context.Projecting)
    (stays : ∀ lexeme ∈ part, lexeme.isKeyword = true → Keyword.isInsignificant lexeme.normalized = true) :
    (context.after part).Projecting := by
  induction part generalizing context with
  | nil => exact projecting
  | cons lexeme part ih =>
    exact ih (projecting_step projecting (stays lexeme List.mem_cons_self)) fun other member =>
      stays other (List.mem_cons_of_mem _ member)

theorem projecting_spots (projecting : context.Projecting)
    (stays : ∀ lexeme ∈ part, lexeme.isKeyword = true → Keyword.isInsignificant lexeme.normalized = true) :
    ∀ spot ∈ spots context before part after, spot.context.Projecting := by
  intro spot member
  induction part generalizing context before with
  | nil => cases member
  | cons lexeme part ih =>
    rcases List.mem_cons.mp member with rfl | later
    · exact projecting
    · exact ih (projecting_step projecting (stays lexeme List.mem_cons_self)) (fun other inside =>
        stays other (List.mem_cons_of_mem _ inside))
        later

theorem unqueried_of_projecting {spot : Spot} (projecting : spot.context.Projecting) : spot.isIn .subquery = false := by
  unfold Spot.isIn
  cases opened : spot.context.opened with
  | nil => rfl
  | cons frame outer =>
    obtain ⟨kind | kind, -⟩ := projecting.opened frame (by rw [opened]; exact List.mem_cons_self) <;> simp [kind]

theorem projecting_expression (projecting : context.Projecting) {expression : Expression}
    (known : expression.Known) (apart : Bool) :
    (context.after (expression.lexemes apart)).Projecting := by
  refine projecting_after projecting fun lexeme member keyword => ?_
  cases (noKeyword_of_expressive (expressive_expression known apart lexeme member)).symm.trans keyword

theorem frames_of_projecting (projecting : context.Projecting) :
    ∀ frame ∈ context.opened.head?, frame.kind ≠ .withColumns ∧ frame.kind ≠ .createTableColumns := by
  intro frame found
  obtain ⟨kind | kind, -⟩ := projecting.opened frame (List.mem_of_mem_head? found) <;> rw [kind] <;>
    exact ⟨nofun, nofun⟩

/-- What opens a parenthesis closes it. -/
theorem openings_nested (nested : Nested bound part) (before : List Lexeme) :
    openings (part.reverse ++ before) = openings before := by
  induction nested generalizing before with
  | nil => rfl
  | @cons bound lexeme rest wordless later ih =>
    rw [List.reverse_cons, List.append_assoc, ih]
    exact (by rw [openings, wordless.1] : openings (lexeme :: before) = openings before)
  | @group bound apart inner rest inside later ihInner ihRest =>
    have turned : (⟨.punctuation, "(", none, apart⟩ :: (inner ++ closing :: rest) : List Lexeme).reverse ++ before =
        rest.reverse ++ (closing :: (inner.reverse ++ ⟨.punctuation, "(", none, apart⟩ :: before)) := by simp
    have closes : openings (closing :: (inner.reverse ++ ⟨.punctuation, "(", none, apart⟩ :: before)) =
        (openings (inner.reverse ++ ⟨.punctuation, "(", none, apart⟩ :: before)).tail := rfl
    rw [turned, ihRest, closes, ihInner]
    rfl

theorem joins_of_other (other : here.isPunctuation "," = false ∧ here.isKeyword = false) :
    here.separates before = false := by
  rw [separates, other.1, other.2, Bool.false_and, Bool.or_false, Bool.and_false]

/-- In parentheses no item begins. -/
theorem joins_inside (inside : (openings before).isEmpty = false) : here.separates before = false := by
  rw [separates, inside, Bool.false_and]

end Places

section Names

theorem columnsAt_other (other : here.isName = false ∧ here.isWildcard = false) (next : Option Lexeme) :
    scope.columnsAt before here next = [] := by
  rw [AliasDeclaration.Scope.columnsAt, other.1, other.2, Bool.or_false, Bool.and_false, Bool.false_and,
    if_neg Bool.false_ne_true]

theorem columnsAt_mark (noDot : last.isDot = false) {next : Option Lexeme} (ends : next.any isDot = false) {mark : Mark}
    (name : mark.isWildcard = false) (apart : Bool) :
    scope.columnsAt (last :: before) (ofName mark.name apart) next = scope.meant mark := by
  have spelled : nameBefore (ofName mark.name apart :: last :: before) = mark.name :=
    nameBefore_undotted (undotted_cons noDot before) _
  have isName : (ofName mark.name apart).isName = true := rfl
  have noWildcard : (ofName mark.name apart).isWildcard = false := rfl
  simp only [AliasDeclaration.Scope.columnsAt, AliasDeclaration.Scope.meant, spelled, ends,
    isName, noWildcard, name, Bool.not_false, Bool.true_or, Bool.true_and, Bool.false_or]

theorem columnsAt_wildcard (noDot : last.isDot = false) {next : Option Lexeme} (ends : next.any isDot = false) :
    scope.columnsAt (last :: before) allRows next = scope.meant .wildcard := by
  have spelled : nameBefore (allRows :: last :: before) = "*" := nameBefore_undotted (undotted_cons noDot before) _
  have isWildcard : allRows.isWildcard = true := rfl
  simp only [AliasDeclaration.Scope.columnsAt, AliasDeclaration.Scope.meant, spelled, ends,
    isWildcard, Mark.name, Mark.isWildcard, Bool.not_false, Bool.true_or, Bool.or_true, Bool.true_and]

theorem mention?_of_call (noWildcard : here.isWildcard = false) (called : after.head?.any (·.isPunctuation "(") = true)
    {aliasNames : List String} {declared : List Nat} :
    Spot.mention? aliasNames declared ⟨context, before, here, after⟩ = none := by
  simp [Spot.mention?, Spot.isExcluded, Spot.next, noWildcard, called]

/-- The wildcard of a function of all rows is no column. -/
theorem mention?_of_opened {aliasNames : List String} {declared : List Nat} {apart : Bool} :
    Spot.mention? aliasNames declared ⟨context, ⟨.punctuation, "(", none, apart⟩ :: before, allRows, after⟩ = none := by
  have isWildcard : allRows.isWildcard = true := rfl
  have opened : Spot.previous ⟨context, ⟨.punctuation, "(", none, apart⟩ :: before, allRows, after⟩ =
      some ⟨.punctuation, "(", none, apart⟩ := rfl
  have opens : (⟨.punctuation, "(", none, apart⟩ : Lexeme).isPunctuation "(" = true := rfl
  rw [Spot.mention?, isWildcard, if_pos rfl, opened, Option.any_some, opens, Bool.not_true,
    Bool.and_false, if_neg Bool.false_ne_true]

end Names

end QueryFacts.Proofs.ExpressionSpots

namespace QueryFacts.Offers
open Lexeme Proofs.Spots Proofs.MentionSpots Proofs.ExpressionSpots

variable {scope : AliasDeclaration.Scope} {context : Context} {before after first rest : List Lexeme}
    {here : Lexeme} {marks marks' : List Mark}

theorem nil : Offers scope context before [] after [] := ⟨.nil, (List.append_nil _).symm⟩

theorem append (left : Offers scope context before first (rest ++ after) marks)
    (right : Offers scope (context.after first) (first.reverse ++ before) rest after marks') :
    Offers scope context before (first ++ rest) after (marks ++ marks') where
  names := by
    rw [List.filterMap_append, Column.Mention.ofNames_append]
    exact left.names.append right.names
  covers := by
    rw [List.reverse_append, List.append_assoc, right.covers, left.covers, List.flatMap_append,
      List.append_assoc, List.append_assoc]

/-- A lexeme that no item begins after adds what the scope knows of it. -/
theorem single
    (names : Names scope context before [here] after
      (Column.Mention.ofNames scope.names .select (marks.filterMap Mark.column?)) [])
    (joins : here.separates before = false)
    (known : scope.columnsAt before here after.head? = marks.flatMap scope.meant) :
    Offers scope context before [here] after marks where
  names := names
  covers := by
    have joins : ¬here.separates before = true := by rw [joins]; exact Bool.false_ne_true
    rw [← known]
    exact if_neg joins

theorem skip (other : here.isName = false ∧ here.isWildcard = false) (joins : here.separates before = false)
    (later : Offers scope (context.step here) (here :: before) rest after marks) :
    Offers scope context before (here :: rest) after marks := by
  have nothing : Offers scope context before [here] (rest ++ after) [] :=
    single (.skip other .nil) joins (columnsAt_other other _)
  exact nothing.append later

end QueryFacts.Offers

namespace QueryFacts.Proofs.ExpressionSpots
open Lexeme Expression SelectList ColumnListStatement Phrases Spots ColumnSpots MentionSpots Expressions

section Expressions

variable {scope : AliasDeclaration.Scope} {context : Context} {before after : List Lexeme} {last : Lexeme}

/-- The part offers the marks wherever an operand may stand in a select list. -/
def OffersMarks (scope : AliasDeclaration.Scope) (part : List Lexeme) (marks : List Mark) : Prop :=
  ∀ {context : Context} {before after : List Lexeme} {last : Lexeme}, context.Projecting →
    Fresh last → last.isDot = false → Halts after →
    Offers scope context (last :: before) part after marks

private theorem joins_name (name : String) (apart : Bool) : (ofName name apart).separates before = false :=
  joins_of_other ⟨rfl, rfl⟩

private theorem joins_opening (apart : Bool) : (⟨.punctuation, "(", none, apart⟩ : Lexeme).separates before = false :=
  joins_of_other ⟨rfl, rfl⟩

/-- The parenthesis that closes a part adds nothing to it. -/
private theorem offers_closed {part : List Lexeme} {marks : List Mark}
    (inside : Offers scope context before part (closing :: after) marks) :
    Offers scope context before (part ++ [closing]) after marks := by
  have closes (context : Context) (before : List Lexeme) : Offers scope context before [closing] after [] :=
    .skip ⟨rfl, rfl⟩ (joins_of_other ⟨by decide, rfl⟩) .nil
  have whole := inside.append (closes _ _)
  rwa [List.append_nil] at whole

theorem offers_column (name : String) (apart : Bool) : OffersMarks scope [ofName name apart] [.column name] := by
  intro context before after last projecting fresh noDot halts
  have opened : Section.OpenedBy .select "SELECT" := ⟨by decide, by decide, rfl⟩
  have clause : Spot.clause ⟨context, last :: before, ofName name apart, after⟩ = "SELECT" := by
    rw [Spot.clause, projecting.clause]
    rfl
  have place : Spot.section? ⟨context, last :: before, ofName name apart, after⟩ =
      some .select := section?_of_clause opened clause
  have spelled : nameBefore (ofName name apart :: last :: before) = name :=
    nameBefore_undotted (undotted_cons noDot before) _
  have named :=
    @names_single scope context before after last apart name fresh halts (frames_of_projecting projecting) .select place
  refine .single ?_ (joins_name name apart) ?_
  · have listed : [Mark.column name].filterMap Mark.column? = [name] := rfl
    rw [listed, Column.Mention.ofNames_cons]
    rw [spelled] at named
    exact named.append .nil
  · rw [List.flatMap_singleton]
    exact @columnsAt_mark scope before last noDot _ halts.1 (.column name) rfl apart

/-- A literal offers nothing. -/
theorem offers_literal {literal : Lexeme} (other : literal.isName = false ∧ literal.isWildcard = false)
    (joins : literal.isPunctuation "," = false ∧ literal.isKeyword = false) : OffersMarks scope [literal] [] :=
  fun _ _ _ _ => .skip other (joins_of_other joins) .nil

/-- The name of a function is no mention, but it covers what a column of this name would. -/
theorem offers_function {rest : List Lexeme} {marks : List Mark} (name : String) (apart : Bool)
    (fresh : Fresh last) (noDot : last.isDot = false)
    (later : Offers scope ((context.step (ofName name apart)).step ⟨.punctuation, "(", none, false⟩)
      (⟨.punctuation, "(", none, false⟩ :: ofName name apart :: last :: before) rest after marks) :
    Offers scope context (last :: before) (ofName name apart :: ⟨.punctuation, "(", none, false⟩ :: rest) after
        (.function name :: marks) := by
  let following : List Lexeme := ⟨.punctuation, "(", none, false⟩ :: rest
  have unmentioned : Names scope context (last :: before) [ofName name apart] (following ++ after) [] [] :=
    .single (declares_of_fresh fresh) (fun _ => fresh.noClosing) (mention?_of_call rfl rfl)
  have here : Offers scope context (last :: before) [ofName name apart] (following ++ after) [.function name] := by
    refine .single unmentioned (joins_name name apart) ?_
    have ends : (following ++ after).head?.any isDot = false := rfl
    rw [List.flatMap_singleton]
    exact @columnsAt_mark scope before last noDot _ ends (.function name) rfl apart
  exact here.append (.skip ⟨rfl, rfl⟩ (joins_opening false) later)

theorem offers_ofAll (function : String) (apart : Bool) :
    OffersMarks scope ((ofAll function).lexemes apart) [.function function, .wildcard] := by
  intro context before after last projecting fresh noDot halts
  let opening : Lexeme := ⟨.punctuation, "(", none, false⟩
  let front := opening :: ofName function apart :: last :: before
  have isName : allRows.isName = false := rfl
  have unmentioned :
      Names scope ((context.step (ofName function apart)).step opening) front [allRows] (closing :: after) [] [] :=
    .single (declares_of_other isName)
      (fun name => absurd (isName.symm.trans name) Bool.false_ne_true) mention?_of_opened
  have wildcard :
      Offers scope ((context.step (ofName function apart)).step opening) front [allRows]
          (closing :: after) [.wildcard] := by
    refine .single unmentioned (joins_of_other ⟨rfl, rfl⟩) ?_
    rw [List.flatMap_singleton]
    exact columnsAt_wildcard rfl rfl
  exact offers_function function apart fresh noDot (offers_closed wildcard)

private theorem halts_arguments (halts : Halts after) (arguments : List Expression) :
    Halts (argumentLexemes true arguments ++ after) := by
  cases arguments with
  | nil => exact halts
  | cons next rest => exact ⟨rfl, show comma.isPunctuation "(" = false by decide⟩

private theorem halts_closing : Halts (closing :: after) := ⟨rfl, show closing.isPunctuation "(" = false by decide⟩

/-- The arguments stand in the parentheses of their function, so that no comma among them begins an item. -/
theorem offers_arguments {arguments : List Expression} (known : ∀ argument ∈ arguments, argument.Known)
    (each : ∀ argument ∈ arguments, ∀ apart, OffersMarks scope (argument.lexemes apart) argument.marks) {begun : Bool}
    (projecting : context.Projecting) (inside : (openings (last :: before)).isEmpty = false)
    (starts : begun = false → Fresh last ∧ last.isDot = false) (halts : Halts after) :
    Offers scope context (last :: before) (argumentLexemes begun arguments) after (argumentMarks arguments) := by
  induction arguments generalizing context before last begun with
  | nil => exact .nil
  | cons next rest ih =>
    obtain ⟨first, others⟩ := List.forall_mem_cons.mp known
    have item {context : Context} {before : List Lexeme} {last : Lexeme} (projecting : context.Projecting)
        (inside : (openings (last :: before)).isEmpty = false) (fresh : Fresh last) (noDot : last.isDot = false) :
        Offers scope context (last :: before) (next.lexemes begun ++ argumentLexemes true rest) after
            (next.marks ++ argumentMarks rest) := by
      have here :
          Offers scope context (last :: before) (next.lexemes begun) (argumentLexemes true rest ++ after) next.marks :=
        each next List.mem_cons_self begun projecting fresh noDot (halts_arguments halts rest)
      rw [← openings_nested (nested_expression first begun) (last :: before)] at inside
      refine here.append ?_
      cases passed : (next.lexemes begun).reverse ++ last :: before with
      | nil => simp at passed
      | cons final front =>
        rw [passed] at inside
        exact ih others
          (fun other member =>
            each other (List.mem_cons_of_mem _ member)) (projecting_expression projecting first begun)
          inside nofun
    cases begun with
    | false => exact item projecting inside (starts rfl).1 (starts rfl).2
    | true =>
      have further : (openings (comma :: last :: before)).isEmpty = false := inside
      exact .skip ⟨rfl, rfl⟩ (joins_inside inside) (item (projecting_step projecting nofun) further fresh_comma rfl)

/-- Every column of an expression is mentioned, and its item covers the marks that the scope knows. -/
theorem offers_expression {expression : Expression} (known : expression.Known) (apart : Bool) :
    OffersMarks scope (expression.lexemes apart) expression.marks := by
  induction known generalizing apart with
  | @column name unquoted => exact offers_column name apart
  | @number digits spelled =>
    refine offers_literal ?_ ?_ <;> rcases ofNumeral_cases digits apart with same | same <;>
      rw [same] <;> exact ⟨rfl, rfl⟩
  | string content => exact offers_literal ⟨rfl, rfl⟩ ⟨rfl, rfl⟩
  | @ofAll function called => exact offers_ofAll function apart
  | @sum left right first second ihFirst ihSecond =>
    intro context before after last projecting fresh noDot halts
    have between : Halts (plus :: right.lexemes true ++ after) := ⟨rfl, rfl⟩
    have freshPlus : Fresh plus := ⟨⟨rfl, rfl, show ("+" == "::") = false by decide, rfl⟩, rfl, rfl⟩
    have projecting' : ((context.after (left.lexemes apart)).step plus).Projecting :=
      projecting_step (projecting_expression projecting first apart) nofun
    exact (ihFirst apart projecting fresh noDot between).append (.skip ⟨rfl, rfl⟩ (joins_of_other ⟨rfl, rfl⟩)
      (ihSecond true projecting' freshPlus rfl halts))
  | @group inner inside ih =>
    intro context before after last projecting fresh noDot halts
    let opening : Lexeme := ⟨.punctuation, "(", none, apart⟩
    have later :
        Offers scope (context.step opening) (opening :: last :: before) (inner.lexemes false)
            (closing :: after) inner.marks :=
      ih false (projecting_step projecting nofun) (fresh_opening apart) rfl halts_closing
    exact .skip ⟨rfl, rfl⟩ (joins_opening apart) (offers_closed later)
  | @call function arguments called each ih =>
    intro context before after last projecting fresh noDot halts
    have projecting' : ((context.step (ofName function apart)).step ⟨.punctuation, "(", none, false⟩).Projecting :=
      projecting_step (projecting_step projecting nofun) nofun
    let front := ⟨.punctuation, "(", none, false⟩ :: ofName function apart :: last :: before
    have list : Offers scope _ front (argumentLexemes false arguments) (closing :: after) (argumentMarks arguments) :=
      offers_arguments each ih projecting' rfl (fun _ => ⟨fresh_opening false, rfl⟩) halts_closing
    exact offers_function function apart fresh noDot (offers_closed list)

end Expressions

end QueryFacts.Proofs.ExpressionSpots

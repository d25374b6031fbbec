import Mathlib.Data.List.Induction
import QueryFacts.Proofs.WithStatements
import QueryFacts.WithClause

/-! How a WITH clause is read: a name with its dots, a list of columns, AS and a body, declaration
after declaration. Each declares what is written in it, and what is left out is an error. -/

namespace QueryFacts

/-- Lexemes as they are written anew, with the spaces between them that a query has. -/
def respaced (lexemes : List Lexeme) : String :=
  String.ofList (Token.writeAfter none (lexemes.map ({} : Nesting).tokenOf))

/-- The positions of the names among lexemes that begin at a position. -/
def namePositions (start : Nat) (lexemes : List Lexeme) : List Nat :=
  ((lexemes.zipIdx start).filter (·.1.isName)).map Prod.snd

namespace WithDeclaration

/-- The list of columns of a declaration that begins at a position. -/
def columnList? (start : Nat) (declaration : WithDeclaration) : Option WithColumnList :=
  declaration.columns?.map fun columns =>
    ⟨declaration.fullName, namePositions (start + declaration.nameLexemes.length + 1) columns.inner⟩

/-- The name of a declaration and its body. -/
def body (declaration : WithDeclaration) : Option (String × String) :=
  declaration.body?.map fun body => (declaration.fullName, respaced body.inner)

end WithDeclaration

end QueryFacts

namespace QueryFacts.Proofs.WithStatements
open Parenthesis NestingRun Signs SelectList Spots WithClause

/-- The clause is refused at some token. -/
def Refuses {α : Type} (result : Except Error α) : Prop :=
  ∃ position fault, result = .error (.malformedWith position fault)

section Groups

variable {limits : Limits} {lexemes : List Lexeme} {sequence : TokenSequence}

private theorem writeAfter_congr {tokens others : List Token} (same : tokens.map lexemeOf = others.map lexemeOf)
    {before other : Option Token} (begins : before.map lexemeOf = other.map lexemeOf) :
    Token.writeAfter before tokens = Token.writeAfter other others := by
  induction tokens generalizing others before other with
  | nil => rw [List.map_eq_nil_iff.mp same.symm, Token.writeAfter, Token.writeAfter]
  | cons token tokens ih =>
    obtain ⟨token', others, rfl, alike, later⟩ := List.map_eq_cons_iff.mp same.symm
    have value : token'.value = token.value := congrArg Lexeme.value alike
    have kind : token'.kind = token.kind := congrArg Lexeme.kind alike
    have quote : token'.quote = token.quote := congrArg Lexeme.quote alike
    have space : token'.spaceBefore = token.spaceBefore := congrArg Lexeme.spaceBefore alike
    have display : token'.display = token.display := by rw [Token.display, Token.display, value, quote]
    have apart : other.any (Token.needsSpace · token') = before.any (Token.needsSpace · token) := by
      cases before with
      | none => rw [Option.map_eq_none_iff.mp begins.symm, Option.any_none, Option.any_none]
      | some first =>
        obtain ⟨first', rfl, alike⟩ := Option.map_eq_some_iff.mp begins.symm
        have value' : first'.value = first.value := congrArg Lexeme.value alike
        have kind' : first'.kind = first.kind := congrArg Lexeme.kind alike
        rw [Option.any_some, Option.any_some, Token.needsSpace, Token.needsSpace, value, kind, space, value', kind']
    have next : (some token).map lexemeOf = (some token').map lexemeOf := congrArg some alike.symm
    rw [Token.writeAfter, Token.writeAfter, display, apart, ih later.symm next]

variable {before after : List Lexeme} {group : Group}

theorem group_parts (whole : lexemes = before.reverse ++ (group.lexemes ++ after)) :
    lexemes = before.reverse ++ group.opening :: (group.inner ++ group.closing :: after) := by
  rw [whole, Group.lexemes, List.cons_append, List.append_assoc]
  rfl

variable (annotated : annotate limits lexemes = .ok sequence)
include annotated

variable (whole : lexemes = before.reverse ++ (group.lexemes ++ after))
include whole

theorem group_matching :
    (sequence.cursor before.length).matching = sequence.cursor (before.length + group.inner.length + 1) := by
  have opens := side?_eq_opening.mpr group.opens
  have closes := side?_eq_closing.mpr group.closes
  have pair := pair_around (sides before.reverse) group.balanced (sides after)
  have same : sequence.sides =
      sides before.reverse ++ some ParenSide.opening ::
          (sides group.inner ++ some ParenSide.closing :: sides after) := by
    rw [WellNested.sides_annotated annotated, group_parts whole]
    simp only [sides, List.map_append, List.map_cons, opens, closes]
  have length (lexemes : List Lexeme) : (sides lexemes).length = lexemes.length := List.length_map _
  rw [← same, length, length, List.length_reverse] at pair
  exact (WellNested.matching_of_pair (WellNested.annotate_wellNested annotated) pair).1

theorem group_write : sequence.write before.length (before.length + group.inner.length + 1) = respaced group.inner := by
  have between := map_between annotated (group_parts whole)
  rw [List.length_reverse] at between
  have bare : (group.inner.map ({} : Nesting).tokenOf).map lexemeOf = group.inner := by
    rw [List.map_map]
    exact List.map_id group.inner
  rw [TokenSequence.write, respaced, writeAfter_congr (between.trans bare.symm) rfl]

theorem group_opens (kind : ParenKind) : (sequence.cursor before.length).opens kind =
    (((Context.start lexemes).after before.reverse).parenKind == kind) := by
  have opens := side?_eq_opening.mpr group.opens
  rw [Cursor.opens, Places.paren?, sign?_here annotated (group_parts whole), Option.bind_some]
  simp only [Context.sign, opens]
  rw [Bool.eq_iff_iff, beq_iff_eq, beq_iff_eq, Option.some_inj, ParenRole.mk.injEq, and_iff_left rfl]

end Groups

section Names

variable {limits : Limits} {lexemes : List Lexeme} {sequence : TokenSequence}
    {before rest : List Lexeme} {name : Lexeme}
  {qualifiers : List (Lexeme × Lexeme)}

theorem length_qualified (qualifiers : List (Lexeme × Lexeme)) :
    (qualified qualifiers).length = 2 * qualifiers.length := by
  induction qualifiers with
  | nil => rfl
  | cons part qualifiers ih =>
    change (part.1 :: part.2 :: qualified qualifiers).length = _
    rw [List.length_cons, List.length_cons, ih, List.length_cons, Nat.mul_succ]

private theorem nameParts_qualified (isQualifier : ∀ part ∈ qualifiers, part.1.isName = true ∧ part.2.isDot = true)
    (undotted : ∀ last ∈ before.head?, last.isDot = false) (here : Lexeme) :
    Lexeme.nameParts ((qualified qualifiers).reverse ++ before) here = qualifiers.map (·.1.value) ++ [here.value] := by
  induction qualifiers using List.reverseRecOn generalizing here with
  | nil => exact nameParts_undotted undotted here
  | append_singleton qualifiers part ih =>
    obtain ⟨others, last⟩ := List.forall_mem_append.mp isQualifier
    obtain ⟨isName, isDot⟩ := last part List.mem_cons_self
    have reversed : (qualified (qualifiers ++ [part])).reverse ++ before =
        part.2 :: part.1 :: ((qualified qualifiers).reverse ++ before) := by
      simp [qualified]
    rw [reversed, Lexeme.nameParts, isDot, isName, Bool.and_self, if_pos rfl, ih others,
      List.map_append, List.map_singleton]

variable (annotated : annotate limits lexemes = .ok sequence)
include annotated

theorem lastNamePart_qualified (isQualifier : ∀ part ∈ qualifiers, part.1.isName = true ∧ part.2.isDot = true)
    (isName : name.isName = true) (whole : lexemes = before.reverse ++ (qualified qualifiers ++ name :: rest))
    (undotted : rest.head?.any (·.isDot) = false) {count : Nat} (enough : qualifiers.length ≤ count) :
    lastNamePart count (sequence.cursor before.length) = sequence.cursor (before.length + 2 * qualifiers.length) := by
  induction qualifiers generalizing before count with
  | nil =>
    have noDot : (sequence.cursor before.length).next.isDot = false := by
      rw [(shows_next annotated whole).isDot, undotted]
    cases count with
    | zero => rfl
    | succ count => rw [lastNamePart, noDot, Bool.false_and, if_neg Bool.false_ne_true]; rfl
  | cons part qualifiers ih =>
    obtain ⟨⟨-, isDot⟩, others⟩ := List.forall_mem_cons.mp isQualifier
    obtain ⟨count, rfl⟩ := Nat.exists_eq_succ_of_ne_zero (Nat.ne_of_gt (Nat.lt_of_lt_of_le (Nat.succ_pos _) enough))
    have first : lexemes = before.reverse ++ part.1 :: part.2 :: (qualified qualifiers ++ name :: rest) := whole
    have second :
        lexemes = (part.1 :: before).reverse ++ part.2 :: (qualified qualifiers ++ name :: rest) := by simp [first]
    have third :
        lexemes = (part.2 :: part.1 :: before).reverse ++ (qualified qualifiers ++ name :: rest) := by simp [first]
    have dotted : (sequence.cursor before.length).next.isDot = true := by
      rw [(shows_next annotated first).isDot]
      exact isDot
    have named : (sequence.cursor before.length).next.next.isName = true := by
      have next := (shows_next annotated second).isName
      rw [List.length_cons] at next
      rw [Cursor.next_cursor, next]
      cases qualifiers with
      | nil => exact isName
      | cons other qualifiers => exact (others other List.mem_cons_self).1
    rw [lastNamePart, dotted, named, Bool.and_self, if_pos rfl, Cursor.next_cursor, Cursor.next_cursor]
    have later := ih others third (Nat.le_of_succ_le_succ enough)
    rw [List.length_cons, List.length_cons] at later
    rw [later, List.length_cons, Nat.mul_succ]
    exact congrArg sequence.cursor (by omega)

theorem dottedName_qualified (isQualifier : ∀ part ∈ qualifiers, part.1.isName = true ∧ part.2.isDot = true)
    (whole : lexemes = before.reverse ++ (qualified qualifiers ++ name :: rest))
    (undotted : ∀ last ∈ before.head?, last.isDot = false) :
    (sequence.cursor (before.length + 2 * qualifiers.length)).dottedName =
      String.intercalate "." (qualifiers.map (·.1.value) ++ [name.value]) := by
  have parts : lexemes = ((qualified qualifiers).reverse ++ before).reverse ++ name :: rest := by simp [whole]
  have place : ((qualified qualifiers).reverse ++ before).length = before.length + 2 * qualifiers.length := by
    rw [List.length_append, List.length_reverse, length_qualified, Nat.add_comm]
  rw [← place, dottedName_eq annotated parts, Lexeme.nameBefore, nameParts_qualified isQualifier undotted]

end Names

section Columns

variable {limits : Limits} {lexemes : List Lexeme} {sequence : TokenSequence}
    {before after : List Lexeme} {group : Group}

private theorem filter_positions {part rest : List Lexeme} (front : List Lexeme)
    (whole : lexemes = front ++ (part ++ rest)) :
    (List.range' front.length part.length).filter (fun index => lexemes[index]?.any (·.isName)) =
      namePositions front.length part := by
  induction part generalizing front with
  | nil => rfl
  | cons lexeme part ih =>
    have found : lexemes[front.length]? = some lexeme := by
      rw [whole, List.getElem?_append_right (Nat.le_refl _), Nat.sub_self]
      rfl
    have later := ih (front ++ [lexeme]) (by simp [whole])
    rw [List.length_append, List.length_singleton] at later
    rw [List.length_cons, List.range'_succ, List.filter_cons, found, Option.any_some, later,
      namePositions, namePositions, List.zipIdx_cons, List.filter_cons]
    by_cases isName : lexeme.isName = true
    · rw [if_pos isName, if_pos isName]
      rfl
    · rw [if_neg isName, if_neg isName]

theorem undotted_mark {lexeme : Lexeme} {text : String} (mark : lexeme.isPunctuation text = true) :
    lexeme.isDot = false := by
  rw [Lexeme.isPunctuation, Bool.and_eq_true, beq_iff_eq] at mark
  rw [Lexeme.isDot, mark.1]
  rfl

theorem undotted_word {lexeme : Lexeme} {word : String} (reads : lexeme.reads word = true) : lexeme.isDot = false := by
  rw [Lexeme.reads, Bool.and_eq_true, Lexeme.isKeyword, beq_iff_eq] at reads
  rw [Lexeme.isDot, reads.1]
  rfl

theorem not_word_of_mark {lexeme : Lexeme} {text : String} (mark : lexeme.isPunctuation text = true) (word : String) :
    lexeme.reads word = false := by
  rw [Lexeme.isPunctuation, Bool.and_eq_true, beq_iff_eq] at mark
  rw [Lexeme.reads, Lexeme.isKeyword, mark.1]
  rfl

/-- The columns of a list are its names. -/
theorem columns_group (annotated : annotate limits lexemes = .ok sequence)
    (whole : lexemes = before.reverse ++ (group.lexemes ++ after))
    (undotted : ∀ lexeme ∈ group.inner, lexeme.isDot = false) :
    (((sequence.cursor before.length).between (sequence.cursor (before.length + group.inner.length + 1))).filter
      fun cursor => cursor.isName && !cursor.next.isDot).filterMap (·.index) =
          namePositions (before.length + 1) group.inner := by
  have parts := group_parts whole
  have size : sequence.size = lexemes.length := size_of_annotated annotated
  have last : before.length + group.inner.length + 1 < sequence.size := by
    rw [size, parts]
    simp only [List.length_append, List.length_reverse, List.length_cons]
    omega
  have inside :
      lexemes = (before.reverse ++ [group.opening]) ++ (group.inner ++ group.closing :: after) := by simp [parts]
  have front : (before.reverse ++ [group.opening]).length = before.length + 1 := by simp
  have inner : ∀ lexeme ∈ group.inner ++ [group.closing], lexeme.isDot = false :=
    List.forall_mem_append.mpr ⟨undotted, List.forall_mem_singleton.mpr (undotted_mark group.closes)⟩
  have each : ∀ index ∈ List.range' (before.length + 1) group.inner.length,
      ((fun cursor : Cursor => cursor.isName && !cursor.next.isDot) ∘ sequence.cursor) index =
        lexemes[index]?.any (·.isName) := by
    intro index member
    obtain ⟨lower, upper⟩ := List.mem_range'_1.mp member
    have noDot : (sequence.cursor index).next.isDot = false := by
      have place :
          lexemes[index + 1]? = ((group.inner ++ [group.closing]) ++ after)[index + 1 - (before.length + 1)]? := by
        rw [inside, List.getElem?_append_right (by omega), front, List.append_assoc]
        rfl
      have early : index + 1 - (before.length + 1) < (group.inner ++ [group.closing]).length := by
        rw [List.length_append, List.length_singleton]
        omega
      rw [Cursor.next_cursor, (shows_cursor annotated (index + 1)).isDot, place, List.getElem?_append_left early,
        List.getElem?_eq_getElem early, Option.any_some]
      exact inner _ (List.getElem_mem early)
    rw [Function.comp_apply, (shows_cursor annotated index).isName, noDot, Bool.not_false, Bool.and_true]
  have listed : (sequence.cursor before.length).between (sequence.cursor (before.length + group.inner.length + 1)) =
      (List.range' (before.length + 1) group.inner.length).map sequence.cursor := by
    have count : before.length + group.inner.length + 1 - (before.length + 1) = group.inner.length := by omega
    rw [Cursor.cursor_of_lt last, Cursor.cursor_of_lt (by omega)]
    change (List.range' _ (before.length + group.inner.length + 1 - (before.length + 1))).map _ = _
    rw [count]
    apply List.map_congr_left
    intro index member
    have upper := (List.mem_range'_1.mp member).2
    have stored : index < sequence.size := by omega
    exact (Cursor.cursor_of_lt stored).symm
  have found := filter_positions (before.reverse ++ [group.opening]) inside
  rw [front] at found
  rw [listed, List.filter_map, List.filterMap_map, List.filter_congr each, found]
  have same :
      ∀ index ∈ namePositions (before.length + 1) group.inner, (Cursor.index ∘ sequence.cursor) index = some index := by
    intro index member
    rw [← found] at member
    have upper := (List.mem_range'_1.mp (List.mem_of_mem_filter member)).2
    have stored : index < sequence.size := by omega
    rw [Function.comp_apply, Cursor.cursor_of_lt stored]
  rw [List.filterMap_congr same, List.filterMap_some]

end Columns

section Declarations

variable {limits : Limits} {lexemes : List Lexeme} {sequence : TokenSequence} {front before after rest : List Lexeme}
  {declaration : WithDeclaration} {group : Group} {as : Lexeme}

/-- What is read of a declaration behind its name and its columns. -/
def readRest (clause : WithClause) (name : String) (after : Cursor) : Except Error (WithClause × Option Cursor) :=
  if after.isWord "AS" then
    readBody clause name after.next else .error (.malformedWith (after.index.getD 0) .expectedAs)

theorem length_group (group : Group) : group.lexemes.length = group.inner.length + 2 := by
  rw [Group.lexemes, List.length_cons, List.length_append, List.length_singleton]

theorem length_nameLexemes (declaration : WithDeclaration) :
    declaration.nameLexemes.length = 2 * declaration.qualifiers.length + 1 := by
  rw [WithDeclaration.nameLexemes, List.length_append, length_qualified, List.length_singleton]

theorem group_stays (declaring : Declaring ((Context.start lexemes).after before.reverse)) (group : Group) :
    Declaring ((Context.start lexemes).after (group.lexemes.reverse ++ before).reverse) := by
  rw [List.reverse_append, List.reverse_reverse, Context.after_append]
  exact declaring.group group

theorem step_stays (declaring : Declaring ((Context.start lexemes).after before.reverse)) {lexeme : Lexeme}
    (quiet : Quiet lexeme) :
    Declaring ((Context.start lexemes).after (lexeme :: before).reverse) ∧
      ((Context.start lexemes).after (lexeme :: before).reverse).last = some lexeme := by
  rw [List.reverse_cons, Context.after_append]
  exact ⟨declaring.step quiet, Context.last_step _ _⟩

theorem quiet_nameLexemes (declaration : WithDeclaration) : ∀ lexeme ∈ declaration.nameLexemes, Quiet lexeme := by
  refine List.forall_mem_append.mpr ⟨?_, List.forall_mem_singleton.mpr (quiet_name declaration.isName)⟩
  intro lexeme member
  obtain ⟨part, inside, here⟩ := List.mem_flatMap.mp member
  obtain ⟨isName, isDot⟩ := declaration.isQualifier part inside
  simp only [List.mem_cons, List.not_mem_nil, or_false] at here
  rcases here with rfl | rfl
  · exact quiet_name isName
  · exact quiet_dot isDot

theorem name_stays (declaring : Declaring ((Context.start lexemes).after before.reverse))
    (declaration : WithDeclaration) :
    Declaring ((Context.start lexemes).after (declaration.nameLexemes.reverse ++ before).reverse) ∧
      ((Context.start lexemes).after (declaration.nameLexemes.reverse ++ before).reverse).last =
          some declaration.name := by
  have parts : declaration.nameLexemes.reverse ++ before =
      declaration.name :: ((qualified declaration.qualifiers).reverse ++ before) := by
    simp [WithDeclaration.nameLexemes]
  have begins :
      Declaring ((Context.start lexemes).after ((qualified declaration.qualifiers).reverse ++ before).reverse) := by
    rw [List.reverse_append, List.reverse_reverse, Context.after_append]
    exact declaring.after (List.forall_mem_append.mp (quiet_nameLexemes declaration)).1
  rw [parts]
  exact step_stays begins (quiet_name declaration.isName)

variable (annotated : annotate limits lexemes = .ok sequence)
include annotated

theorem shows_front (whole : lexemes = front.reverse ++ rest) : Shows (sequence.cursor front.length) rest.head? := by
  have found : lexemes[front.length]? = rest.head? := by
    rw [whole, List.getElem?_append_right (by simp), List.length_reverse, Nat.sub_self, List.head?_eq_getElem?]
  exact found ▸ shows_cursor annotated front.length

theorem opens_none (whole : lexemes = front.reverse ++ rest) (flat : rest.head?.any (·.isPunctuation "(") = false)
    (kind : ParenKind) :
    (sequence.cursor front.length).opens kind = false := by
  have left := (shows_front annotated whole).isLeftParen
  rw [flat, Cursor.isLeftParen] at left
  rw [Cursor.opens, beq_eq_false_iff_ne]
  intro same
  rw [same] at left
  cases left

theorem readRest_asless (whole : lexemes = front.reverse ++ rest) (noAs : rest.head?.any (Lexeme.reads "AS") = false)
    (clause : WithClause) (name : String) : Refuses (readRest clause name (sequence.cursor front.length)) := by
  rw [readRest, (shows_front annotated whole).isWord, noAs]
  exact ⟨_, _, rfl⟩

theorem readRest_as (whole : lexemes = front.reverse ++ as :: rest) (isAs : as.reads "AS" = true)
    (clause : WithClause) (name : String) :
    readRest clause name (sequence.cursor front.length) =
        readBody clause name (sequence.cursor (as :: front).length) := by
  have word : (sequence.cursor front.length).isWord "AS" = true := by
    rw [(shows_front annotated whole).isWord]
    exact isAs
  rw [readRest, word, if_pos rfl, Cursor.next_cursor]
  rfl

theorem readBody_missing (whole : lexemes = front.reverse ++ rest) (flat : rest.head?.any (·.isPunctuation "(") = false)
    (clause : WithClause) (name : String) : Refuses (readBody clause name (sequence.cursor front.length)) := by
  rw [readBody, opens_none annotated whole flat]
  exact ⟨_, _, rfl⟩

theorem readBody_group (whole : lexemes = front.reverse ++ (group.lexemes ++ after))
    (kind : ((Context.start lexemes).after front.reverse).parenKind = .withQuery)
    (clause : WithClause) (name : String) :
    readBody clause name (sequence.cursor front.length) =
      if after.head?.any (·.isPunctuation ",") then
        .ok ({ clause with bodies := clause.bodies.insertNew name (respaced group.inner) },
          some (sequence.cursor (front.length + group.lexemes.length + 1)))
      else if after.head?.any (Lexeme.reads "AS") then
        .error (.malformedWith ((sequence.cursor (front.length + group.lexemes.length)).index.getD 0) .unexpectedAs)
      else .ok ({ clause with bodies := clause.bodies.insertNew name (respaced group.inner) }, none) := by
  have parts := group_parts whole
  have opens : (sequence.cursor front.length).opens .withQuery = true := by
    rw [group_opens annotated whole, kind]
    rfl
  have closing :
      lexemes = (group.inner.reverse ++ group.opening :: front).reverse ++ group.closing :: after := by simp [parts]
  have place : (group.inner.reverse ++ group.opening :: front).length = front.length + group.inner.length + 1 := by
    simp only [List.length_append, List.length_reverse, List.length_cons]
    omega
  have last : front.length + group.inner.length + 1 < sequence.size := place ▸ inside_of_split annotated closing
  have next : (sequence.cursor (front.length + group.inner.length + 1)).next =
      sequence.cursor (front.length + group.lexemes.length) := by
    rw [Cursor.next_cursor, length_group]
    rfl
  have shows : Shows (sequence.cursor (front.length + group.lexemes.length)) after.head? := by
    rw [← next, ← place]
    exact shows_next annotated closing
  have first : (sequence.cursor front.length).index = some front.length := by
    rw [Cursor.cursor_of_lt (by omega : front.length < sequence.size)]
  have second : (sequence.cursor (front.length + group.inner.length + 1)).index =
      some (front.length + group.inner.length + 1) := by
    rw [Cursor.cursor_of_lt last]
  have write : (sequence.cursor front.length).sequence.write front.length (front.length + group.inner.length + 1) =
      respaced group.inner := group_write annotated whole
  unfold readBody
  simp only [opens, Bool.not_true, Bool.false_eq_true, if_false, group_matching annotated whole,
    first, second, next, write, shows.isComma, shows.isWord]
  rw [Cursor.next_cursor]
  rfl

theorem readRest_bodiless (whole : lexemes = front.reverse ++ as :: rest) (isAs : as.reads "AS" = true)
    (flat : rest.head?.any (·.isPunctuation "(") = false) (clause : WithClause) (name : String) :
    Refuses (readRest clause name (sequence.cursor front.length)) := by
  rw [readRest_as annotated whole isAs]
  exact readBody_missing annotated (by rw [whole, List.reverse_cons, List.append_assoc]; rfl) flat clause name

theorem readQuery_name (whole : lexemes = before.reverse ++ (declaration.nameLexemes ++ rest))
    (undotted : ∀ last ∈ before.head?, last.isDot = false) (ends : rest.head?.any (·.isDot) = false)
    (clause : WithClause) :
    let list := sequence.cursor (before.length + declaration.nameLexemes.length)
    readQuery clause (sequence.cursor before.length) =
      if list.opens .withColumns then
        readRest
          { clause with columnLists := clause.columnLists ++ [⟨declaration.fullName,
            ((list.between list.matching).filter
              fun cursor => cursor.isName && !cursor.next.isDot).filterMap (·.index)⟩] }
          declaration.fullName list.matching.next
      else readRest clause declaration.fullName list := by
  intro list
  have parts : lexemes = before.reverse ++ (qualified declaration.qualifiers ++ declaration.name :: rest) := by
    rw [whole, WithDeclaration.nameLexemes, List.append_assoc]
    rfl
  have isName : isQueryName (sequence.cursor before.length) = true := by
    have named : (sequence.cursor before.length).isName = true := by
      rw [(shows_front annotated parts).isName]
      have first := declaration.isQualifier
      cases qualifiers : declaration.qualifiers with
      | nil => exact declaration.isName
      | cons part others => exact (first part (qualifiers ▸ List.mem_cons_self)).1
    rw [isQueryName, named, Bool.true_or]
  have enough : declaration.qualifiers.length ≤ sequence.size := by
    rw [size_of_annotated annotated, parts]
    simp only [List.length_append, List.length_reverse, List.length_cons, length_qualified]
    omega
  have last := lastNamePart_qualified annotated declaration.isQualifier declaration.isName parts ends enough
  have name := dottedName_qualified annotated declaration.isQualifier parts undotted
  have next : (sequence.cursor (before.length + 2 * declaration.qualifiers.length)).next = list := by
    rw [Cursor.next_cursor, Nat.add_assoc, ← length_nameLexemes]
  unfold readQuery
  simp only [isName, Bool.not_true, Bool.false_eq_true, if_false]
  rw [show (sequence.cursor before.length).sequence.size = sequence.size from rfl, last, name, next]
  by_cases opens : list.opens .withColumns = true
  · rw [if_pos opens, if_pos opens]
    rfl
  · rw [if_neg opens, if_neg opens]
    rfl

/-- What is declared by a declaration that begins at a position. -/
def declare (start : Nat) (clause : WithClause) (declaration : WithDeclaration) : WithClause where
  bodies := declaration.body.elim clause.bodies fun pair => clause.bodies.insertNew pair.1 pair.2
  columnLists := clause.columnLists ++ (declaration.columnList? start).toList

/-- What may come after a declaration: no parenthesis, and none behind one more AS. -/
structure Ends (after : List Lexeme) : Prop where
  flat : after.head?.any (·.isPunctuation "(") = false
  undotted : after.head?.any (·.isDot) = false
  again : after.tail.head?.any (·.isPunctuation "(") = false ∨ after.head?.any (Lexeme.reads "AS") = false

omit annotated in
theorem columns_stays (declaring : Declaring ((Context.start lexemes).after before.reverse))
    (declaration : WithDeclaration) :
    Declaring ((Context.start lexemes).after
      (declaration.columnsLexemes.reverse ++ (declaration.nameLexemes.reverse ++ before)).reverse) := by
  have named := (name_stays declaring declaration).1
  rw [WithDeclaration.columnsLexemes]
  cases declaration.columns? with
  | none => exact named
  | some columns => exact group_stays named columns

/-- A group behind the name is a list of columns. -/
theorem readQuery_group (whole : lexemes = before.reverse ++ (declaration.nameLexemes ++ (group.lexemes ++ rest)))
    (declaring : Declaring ((Context.start lexemes).after before.reverse))
    (undotted : ∀ last ∈ before.head?, last.isDot = false)
    (clause : WithClause) :
    let named := declaration.nameLexemes.reverse ++ before
    readQuery clause (sequence.cursor before.length) =
      readRest
        { clause with columnLists :=
          clause.columnLists ++ [⟨declaration.fullName, (((sequence.cursor named.length).between
        (sequence.cursor (named.length + group.inner.length + 1))).filter
          fun cursor => cursor.isName && !cursor.next.isDot).filterMap (·.index)⟩] }
        declaration.fullName (sequence.cursor (group.lexemes.reverse ++ named).length) := by
  intro named
  have parts : lexemes = named.reverse ++ (group.lexemes ++ rest) := by simp [whole, named]
  have place : named.length = before.length + declaration.nameLexemes.length := by
    rw [List.length_append, List.length_reverse, Nat.add_comm]
  have next : named.length + group.inner.length + 1 + 1 = (group.lexemes.reverse ++ named).length := by
    have size := length_group group
    simp only [List.length_append, List.length_reverse]
    omega
  have begins : (group.lexemes ++ rest).head?.any (·.isDot) = false := undotted_mark group.opens
  obtain ⟨declares, last⟩ := name_stays declaring declaration
  have opens := group_opens annotated parts .withColumns
  rw [declares.columns last declaration.isName, beq_self_eq_true] at opens
  rw [readQuery_name annotated whole undotted begins, ← place, opens, if_pos rfl, group_matching annotated parts,
    Cursor.next_cursor, next]

/-- Name and columns are read, and the rest of the declaration behind them. -/
theorem readQuery_columns
    (whole : lexemes = before.reverse ++ (declaration.nameLexemes ++ (declaration.columnsLexemes ++ rest)))
    (declaring : Declaring ((Context.start lexemes).after before.reverse))
    (undotted : ∀ last ∈ before.head?, last.isDot = false)
    (flat : rest.head?.any (·.isPunctuation "(") = false ∨ declaration.columns?.isSome = true)
    (ends : rest.head?.any (·.isDot) = false) (clause : WithClause) :
    readQuery clause (sequence.cursor before.length) =
      readRest { clause with columnLists := clause.columnLists ++ (declaration.columnList? before.length).toList }
        declaration.fullName
        (sequence.cursor
          (declaration.columnsLexemes.reverse ++ (declaration.nameLexemes.reverse ++ before)).length) := by
  have place : (declaration.nameLexemes.reverse ++ before).length = before.length + declaration.nameLexemes.length := by
    rw [List.length_append, List.length_reverse, Nat.add_comm]
  have named :
      lexemes = (declaration.nameLexemes.reverse ++ before).reverse ++ (declaration.columnsLexemes ++ rest) := by
    simp [whole]
  cases list : declaration.columns? with
  | none =>
    have nothing : declaration.columnsLexemes = [] := by rw [WithDeclaration.columnsLexemes, list, Option.elim_none]
    rw [nothing, List.nil_append] at whole named
    rw [list, Option.isSome_none] at flat
    have opens := opens_none annotated named (flat.resolve_right Bool.false_ne_true) .withColumns
    rw [place] at opens
    rw [readQuery_name annotated whole undotted ends, opens, if_neg Bool.false_ne_true, nothing,
      WithDeclaration.columnList?, list, ← place]
    simp
  | some columns =>
    have group :
        declaration.columnsLexemes = columns.lexemes := by rw [WithDeclaration.columnsLexemes, list, Option.elim_some]
    rw [group] at whole named
    have positions := columns_group annotated named (declaration.undotted columns list)
    rw [readQuery_group annotated whole declaring undotted, positions, group, WithDeclaration.columnList?, list, place]
    rfl

theorem readRest_ends (whole : lexemes = front.reverse ++ after) (ends : Ends after)
    (clause : WithClause) (name : String) :
    Refuses (readRest clause name (sequence.cursor front.length)) := by
  cases after with
  | nil => exact readRest_asless annotated whole rfl clause name
  | cons as tail =>
    cases isAs : as.reads "AS" with
    | true =>
      exact readRest_bodiless annotated whole isAs (ends.again.resolve_right (ne_true_of_eq_false · isAs)) clause name
    | false => exact readRest_asless annotated whole isAs clause name

omit annotated in
theorem not_mark_of_reads {word : String} (reads : as.reads word = true) (text : String) :
    as.isPunctuation text = false := by
  rw [Lexeme.reads, Bool.and_eq_true, Lexeme.isKeyword, beq_iff_eq] at reads
  rw [Lexeme.isPunctuation, reads.1]
  rfl

theorem readQuery_complete (whole : lexemes = before.reverse ++ (declaration.lexemes ++ after))
    (declaring : Declaring ((Context.start lexemes).after before.reverse))
    (undotted : ∀ last ∈ before.head?, last.isDot = false)
    (complete : declaration.isComplete = true) (clause : WithClause) :
    readQuery clause (sequence.cursor before.length) =
      if after.head?.any (·.isPunctuation ",") then
        .ok (declare before.length clause declaration,
          some (sequence.cursor (before.length + declaration.lexemes.length + 1)))
      else if after.head?.any (Lexeme.reads "AS") then
        .error (.malformedWith
          ((sequence.cursor (before.length + declaration.lexemes.length)).index.getD 0) .unexpectedAs)
      else .ok (declare before.length clause declaration, none) := by
  rw [WithDeclaration.isComplete, Bool.and_eq_true, Option.isSome_iff_exists, Option.isSome_iff_exists] at complete
  obtain ⟨⟨as, word⟩, body, group⟩ := complete
  have isAs := declaration.isAs as word
  let front := declaration.columnsLexemes.reverse ++ (declaration.nameLexemes.reverse ++ before)
  have parts : declaration.lexemes = declaration.nameLexemes ++ (declaration.columnsLexemes ++ as :: body.lexemes) := by
    rw [WithDeclaration.lexemes, WithDeclaration.bodyLexemes, word, group]
    rfl
  have named : lexemes = before.reverse ++
      (declaration.nameLexemes ++ (declaration.columnsLexemes ++ as :: (body.lexemes ++ after))) := by
    rw [whole, parts, List.append_assoc, List.append_assoc]
    rfl
  have behind : lexemes = front.reverse ++ as :: (body.lexemes ++ after) := by simp [named, front]
  have inside : lexemes = (as :: front).reverse ++ (body.lexemes ++ after) := by simp [behind]
  obtain ⟨declares, last⟩ := step_stays (columns_stays declaring declaration) (quiet_of_reads isAs (by decide))
  have place : (as :: front).length + body.lexemes.length = before.length + declaration.lexemes.length := by
    simp only [front, parts, List.length_cons, List.length_append, List.length_reverse]
    omega
  have declared : declare before.length clause declaration =
      { bodies := clause.bodies.insertNew declaration.fullName (respaced body.inner)
        columnLists := clause.columnLists ++ (declaration.columnList? before.length).toList } := by
    rw [declare, WithDeclaration.body, group]
    rfl
  rw [readQuery_columns annotated named declaring undotted (.inl (not_mark_of_reads isAs "(")) (undotted_word isAs),
    readRest_as annotated behind isAs, readBody_group annotated inside (declares.body last isAs), place, declared]

theorem readQuery_incomplete (whole : lexemes = before.reverse ++ (declaration.lexemes ++ after))
    (declaring : Declaring ((Context.start lexemes).after before.reverse))
    (undotted : ∀ last ∈ before.head?, last.isDot = false)
    (incomplete : declaration.isComplete = false) (ends : Ends after) (clause : WithClause) :
    Refuses (readQuery clause (sequence.cursor before.length)) := by
  let front := declaration.columnsLexemes.reverse ++ (declaration.nameLexemes.reverse ++ before)
  have parts : lexemes = before.reverse ++ (declaration.nameLexemes ++
      (declaration.columnsLexemes ++ (declaration.as?.toList ++ (declaration.bodyLexemes ++ after)))) := by
    rw [whole, WithDeclaration.lexemes]
    simp only [List.append_assoc]
  have behind : lexemes = front.reverse ++ (declaration.as?.toList ++ (declaration.bodyLexemes ++ after)) := by
    simp [parts, front]
  cases word : declaration.as? with
  | some as =>
    -- The body is missing.
    have isAs := declaration.isAs as word
    have missing : declaration.bodyLexemes = [] := by
      rw [WithDeclaration.isComplete, word, Option.isSome_some, Bool.true_and, Option.isSome_eq_false_iff,
        Option.isNone_iff_eq_none] at incomplete
      rw [WithDeclaration.bodyLexemes, incomplete, Option.elim_none]
    rw [word, missing] at parts behind
    rw [readQuery_columns annotated parts declaring undotted (.inl (not_mark_of_reads isAs "(")) (undotted_word isAs)]
    exact readRest_bodiless annotated behind isAs ends.flat _ _
  | none =>
    rw [word] at parts behind
    cases group : declaration.body? with
    | none =>
      have missing : declaration.bodyLexemes = [] := by rw [WithDeclaration.bodyLexemes, group, Option.elim_none]
      rw [missing] at parts behind
      rw [readQuery_columns annotated parts declaring undotted (.inl ends.flat) ends.undotted]
      exact readRest_ends annotated behind ends _ _
    | some body =>
      have same : declaration.bodyLexemes = body.lexemes := by rw [WithDeclaration.bodyLexemes, group, Option.elim_some]
      rw [same] at parts behind
      cases list : declaration.columns? with
      | some columns =>
        rw [readQuery_columns annotated parts declaring undotted (.inr (list ▸ rfl)) (undotted_mark body.opens)]
        exact readRest_asless annotated behind (not_word_of_mark body.opens "AS") _ _
      | none =>
        -- Without AS, the body is taken for a list of columns.
        have nothing : declaration.columnsLexemes = [] := by rw [WithDeclaration.columnsLexemes, list, Option.elim_none]
        rw [nothing] at parts
        rw [readQuery_group annotated parts declaring undotted]
        exact readRest_ends annotated (by simp [parts]) ends _ _

end Declarations

end QueryFacts.Proofs.WithStatements

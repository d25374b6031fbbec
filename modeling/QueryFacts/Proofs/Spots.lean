import QueryFacts.Proofs.Places
import QueryFacts.Value

/-! The passes over a statement as they look at its lexemes. A pass asks in which clause and in
which parentheses a lexeme stands, and what stands next to it, so that what it finds in a part of
a statement does not depend on the rest. -/

namespace QueryFacts

namespace Lexeme

def isName (lexeme : Lexeme) : Bool := lexeme.kind == .name

def isDot (lexeme : Lexeme) : Bool := lexeme.kind == .dot

/-- Punctuation, with which a dot counts. -/
def isMark (lexeme : Lexeme) : Bool := lexeme.kind == .punctuation || lexeme.isDot

/-- The keyword with the normal form `word`. -/
def reads (word : String) (lexeme : Lexeme) : Bool := lexeme.isKeyword && lexeme.normalized == word

/-- The parts of the dotted name that ends at a lexeme, with the lexemes before it, nearest first. -/
def nameParts : List Lexeme → Lexeme → List String
  | dot :: name :: before, here =>
    if dot.isDot && name.isName then nameParts before name ++ [here.value] else [here.value]
  | [_], here => [here.value]
  | [], here => [here.value]

/-- The dotted name that ends at the nearest of the lexemes before another. -/
def nameBefore : List Lexeme → String
  | [] => ""
  | last :: before => String.intercalate "." (nameParts before last)

end Lexeme

/-- A lexeme where it stands in a statement: what the annotation knows when it comes, those before
it, nearest first, and those after it. -/
structure Spot where
  context : Context
  before : List Lexeme
  here : Lexeme
  after : List Lexeme

namespace Spot

def clause (spot : Spot) : String := spot.context.clause.getD ""

def previous (spot : Spot) : Option Lexeme := spot.before.head?

def next (spot : Spot) : Option Lexeme := spot.after.head?

/-- In a parenthesis that opened after the keyword of the clause and holds no sub-query. -/
def isInColumnList (spot : Spot) : Bool :=
  spot.context.outside && !spot.context.opened.head?.any (·.kind = .subquery)

/-- The table that a lexeme names. -/
def table? (spot : Spot) : Option String :=
  if !spot.here.isName || !Keyword.precedesTables spot.clause then none
  else if spot.previous.any (Lexeme.reads "AS") || spot.previous.any (Lexeme.reads "WITH") || spot.next.any Lexeme.isDot
      || spot.isInColumnList then none
  else if spot.previous.any Lexeme.isDot then some (String.intercalate "." (Lexeme.nameParts spot.before spot.here))
  else
    let startsItem :=
      (spot.previous.map (·.normalized)).getD "" == spot.clause || spot.previous.any (Lexeme.reads "EXISTS")
      || spot.previous.any Lexeme.isMark
    if startsItem && !spot.previous.any (·.isPunctuation ")") then some spot.here.value else none

/-- The name in front of an alias, which AS may stand between. -/
def aliased (spot : Spot) : String :=
  Lexeme.nameBefore (if spot.previous.any (Lexeme.reads "AS") then spot.before.tail else spot.before)

/-- The alias that a lexeme gives to one of `tables`, and the table. -/
def alias? (tables : List String) (spot : Spot) : Option (String × String) :=
  if !spot.here.isName || !Keyword.precedesTables spot.clause then none
  else if spot.next.any (Lexeme.reads "AS") || spot.next.any Lexeme.isDot || spot.previous.any Lexeme.isDot then none
  else if tables.contains spot.aliased then some (spot.here.value, spot.aliased) else none

end Spot

/-- The spots of lexemes among others, from a context on. -/
def spots (context : Context) (before : List Lexeme) : List Lexeme → List Lexeme → List Spot
  | [], _ => []
  | here :: rest, after =>
    ⟨context, before, here, rest ++ after⟩ :: spots (context.step here) (here :: before) rest after

theorem spots_append (context : Context) (before first rest after : List Lexeme) :
    spots context before (first ++ rest) after =
      spots context before first (rest ++ after) ++
          spots (context.after first) (first.reverse ++ before) rest after := by
  induction first generalizing context before with
  | nil => rfl
  | cons here first ih => simp [spots, ih, Context.after]

end QueryFacts

namespace QueryFacts.Proofs.Spots
open NestingRun SelectList Signs

theorem side?_of_name {lexeme : Lexeme} (named : lexeme.isName = true) : lexeme.side? = none :=
  side?_of_kind (by rw [eq_of_beq named]; decide)

/-- What a cursor shows of a lexeme, or that it is empty. -/
structure Shows (cursor : Cursor) (lexeme : Option Lexeme) : Prop where
  kind : cursor.kind? = lexeme.map (·.kind)
  value : cursor.value = (lexeme.map (·.value)).getD ""
  normalized : cursor.normalized = (lexeme.map (·.normalized)).getD ""
  side : cursor.paren?.map (·.side) = lexeme.bind (·.side?)

namespace Shows

variable {cursor : Cursor} {lexeme : Option Lexeme} (told : Shows cursor lexeme)
include told

theorem isName : cursor.isName = lexeme.any (·.isName) := by
  rw [Cursor.isName, told.kind]
  cases lexeme <;> rfl

theorem isDot : cursor.isDot = lexeme.any (·.isDot) := by
  rw [Cursor.isDot, told.kind]
  cases lexeme <;> rfl

theorem isPunctuation : cursor.isPunctuation = lexeme.any (·.isMark) := by
  rw [Cursor.isPunctuation, told.isDot, told.kind]
  cases lexeme <;> rfl

theorem isComma : cursor.isComma = lexeme.any (·.isPunctuation ",") := by
  rw [Cursor.isComma, told.kind, told.value]
  cases lexeme <;> rfl

theorem isWord (word : String) : cursor.isWord word = lexeme.any (Lexeme.reads word) := by
  rw [Cursor.isWord, Cursor.isKeyword, told.kind, told.normalized]
  cases lexeme <;> rfl

private theorem parenthesis {side : ParenSide} {text : String} (written : ∀ lexeme : Lexeme,
    lexeme.side? = some side ↔ lexeme.isPunctuation text = true) :
    cursor.paren?.any (·.side == side) = lexeme.any (·.isPunctuation text) := by
  have same : cursor.paren?.any (·.side == side) = (cursor.paren?.map (·.side) == some side) := by
    cases cursor.paren? <;> rfl
  rw [same, told.side, Bool.eq_iff_iff, beq_iff_eq]
  cases lexeme with
  | none => simp
  | some lexeme => exact written lexeme

theorem isLeftParen : cursor.isLeftParen = lexeme.any (·.isPunctuation "(") :=
  told.parenthesis fun _ => side?_eq_opening

theorem isRightParen : cursor.isRightParen = lexeme.any (·.isPunctuation ")") :=
  told.parenthesis fun _ => side?_eq_closing

end Shows

theorem isRightParen_of_closes {cursor : Cursor} {kind : ParenKind} (closes : cursor.closes kind = true) :
    cursor.isRightParen = true := by
  rw [Cursor.closes, beq_iff_eq] at closes
  rw [Cursor.isRightParen, closes]
  rfl

theorem shows_empty (sequence : TokenSequence) : Shows (Cursor.empty sequence) none := ⟨rfl, rfl, rfl, rfl⟩

section Statement

variable {limits : Limits} {lexemes : List Lexeme} {sequence : TokenSequence}
    (annotated : annotate limits lexemes = .ok sequence)
include annotated

theorem size_of_annotated : sequence.size = lexemes.length := by
  obtain ⟨final, ends, -, rfl⟩ := annotate_ok_iff.mp annotated
  exact ends.size

theorem shows_cursor (index : Nat) : Shows (sequence.cursor index) lexemes[index]? := by
  have placed := (WellNested.annotate_wellNested annotated).placed index
  obtain ⟨final, ends, -, rfl⟩ := annotate_ok_iff.mp annotated
  have told : ((⟨final.tokens⟩ : TokenSequence).cursor index).token? = final.tokens[index]? := Cursor.token?_cursor
  cases found : final.tokens[index]? with
  | none =>
    have outside : lexemes[index]? = none := by
      rw [List.getElem?_eq_none_iff, ← ends.size]
      exact Array.getElem?_eq_none_iff.mp found
    rw [found] at told
    rw [outside]
    exact ⟨by rw [Cursor.kind?, told]; rfl, by rw [Cursor.value, told]; rfl, by rw [Cursor.normalized, told]; rfl,
      by rw [Cursor.paren?, told]; rfl⟩
  | some token =>
    obtain ⟨there, normalized⟩ := normalized_lexemeOf ends found
    rw [found] at told
    rw [there]
    refine ⟨by rw [Cursor.kind?, told]; rfl, by rw [Cursor.value, told]; rfl,
      by rw [Cursor.normalized, told, Option.map_some, normalized]; rfl, ?_⟩
    have same : (lexemeOf token).side? = token.side? := rfl
    rw [Cursor.paren?, told, Option.bind_some, Option.bind_some, same]
    cases side : token.side? with
    | none =>
      cases paren : token.paren with
      | none => rfl
      | some role =>
        have other := ((placed token found).role role.side).mpr ⟨role.kind, paren⟩
        rw [side] at other
        cases other
    | some side' =>
      obtain ⟨kind, paren⟩ := ((placed token found).role side').mp side
      rw [paren]
      rfl

variable {before after : List Lexeme} {last here : Lexeme}

theorem shows_here (whole : lexemes = before.reverse ++ here :: after) :
    Shows (sequence.cursor before.length) (some here) := by
  have found : lexemes[before.length]? = some here := by
    rw [whole, List.getElem?_append_right (by simp), List.length_reverse, Nat.sub_self]
    rfl
  exact found ▸ shows_cursor annotated before.length

theorem shows_next (whole : lexemes = before.reverse ++ here :: after) :
    Shows (sequence.cursor before.length).next after.head? := by
  have found : lexemes[before.length + 1]? = after.head? := by
    rw [whole, List.getElem?_append_right (by simp), List.length_reverse, Nat.add_sub_cancel_left,
      List.head?_eq_getElem?]
    rfl
  rw [Cursor.next_cursor]
  exact found ▸ shows_cursor annotated (before.length + 1)

theorem inside_of_split (whole : lexemes = before.reverse ++ here :: after) : before.length < sequence.size := by
  rw [size_of_annotated annotated, whole, List.length_append, List.length_reverse, List.length_cons]
  omega

/-- The cursor before the nearest lexeme stands there as well. -/
theorem previous_of_split (whole : lexemes = (last :: before).reverse ++ here :: after) :
    (sequence.cursor (last :: before).length).previous = sequence.cursor before.length ∧
      lexemes = before.reverse ++ last :: here :: after := by
  have inside := inside_of_split annotated whole
  rw [List.length_cons] at inside ⊢
  exact ⟨Cursor.previous_cursor inside, by rw [whole, List.reverse_cons, List.append_assoc]; rfl⟩

omit annotated in
theorem previous_of_first (sequence : TokenSequence) (inside : 0 < sequence.size) :
    (sequence.cursor 0).previous = Cursor.empty sequence := by
  rw [Cursor.cursor_of_lt inside]
  rfl

theorem shows_previous (whole : lexemes = before.reverse ++ here :: after) :
    Shows (sequence.cursor before.length).previous before.head? := by
  cases before with
  | nil =>
    rw [List.length_nil, previous_of_first sequence (inside_of_split annotated whole)]
    exact shows_empty sequence
  | cons last before =>
    obtain ⟨same, earlier⟩ := previous_of_split annotated whole
    rw [same]
    exact shows_here annotated earlier

private theorem nameParts_eq (whole : lexemes = before.reverse ++ here :: after) :
    Cursor.nameParts sequence before.length = Lexeme.nameParts before here := by
  have value {before after : List Lexeme} {here : Lexeme} (whole : lexemes = before.reverse ++ here :: after) :
      (sequence.cursor before.length).value = here.value := (shows_here annotated whole).value
  fun_induction Lexeme.nameParts before here generalizing after with
  | case1 dot name before here dotted ih =>
    obtain ⟨-, middle⟩ := previous_of_split annotated whole
    obtain ⟨-, first⟩ := previous_of_split annotated middle
    have isDot : (sequence.cursor (before.length + 1)).isDot = dot.isDot := (shows_here annotated middle).isDot
    have isName : (sequence.cursor before.length).isName = name.isName := (shows_here annotated first).isName
    rw [List.length_cons, List.length_cons, Cursor.nameParts, isDot, isName, if_pos dotted, ih first]
    exact congrArg (Lexeme.nameParts before name ++ [·]) (value whole)
  | case2 dot name before here undotted =>
    obtain ⟨-, middle⟩ := previous_of_split annotated whole
    obtain ⟨-, first⟩ := previous_of_split annotated middle
    have isDot : (sequence.cursor (before.length + 1)).isDot = dot.isDot := (shows_here annotated middle).isDot
    have isName : (sequence.cursor before.length).isName = name.isName := (shows_here annotated first).isName
    rw [List.length_cons, List.length_cons, Cursor.nameParts, isDot, isName, if_neg undotted]
    exact congrArg ([·]) (value whole)
  | case3 single here => exact congrArg ([·]) (value whole)
  | case4 here => exact congrArg ([·]) (value whole)

theorem dottedName_eq (whole : lexemes = before.reverse ++ here :: after) :
    (sequence.cursor before.length).dottedName = Lexeme.nameBefore (here :: before) := by
  rw [Cursor.dottedName, Cursor.cursor_of_lt (inside_of_split annotated whole)]
  exact congrArg (String.intercalate ".") (nameParts_eq annotated whole)

theorem previous_dottedName (whole : lexemes = before.reverse ++ here :: after) :
    (sequence.cursor before.length).previous.dottedName = Lexeme.nameBefore before := by
  cases before with
  | nil =>
    rw [List.length_nil, previous_of_first sequence (inside_of_split annotated whole)]
    rfl
  | cons last before =>
    obtain ⟨same, earlier⟩ := previous_of_split annotated whole
    rw [same]
    exact dottedName_eq annotated earlier

theorem sign?_here (whole : lexemes = before.reverse ++ here :: after) :
    (sequence.cursor before.length).sign? = some (((Context.start lexemes).after before.reverse).sign here) := by
  have found : lexemes[before.length]? = some here := by
    rw [whole, List.getElem?_append_right (by simp), List.length_reverse, Nat.sub_self]
    rfl
  have taken : lexemes.take before.length = before.reverse := by
    rw [whole]
    exact List.take_left' (List.length_reverse ..)
  rw [sign?_cursor annotated, Context.signs_getElem?, found, taken]
  rfl

end Statement

section Names
open Lexeme

variable {before : List Lexeme}

theorem undotted_cons {last : Lexeme} (noDot : last.isDot = false) (before : List Lexeme) :
    ∀ lexeme ∈ (last :: before).head?, lexeme.isDot = false := fun _ found => Option.some.inj found ▸ noDot

theorem nameParts_undotted (undotted : ∀ last ∈ before.head?, last.isDot = false) (here : Lexeme) :
    nameParts before here = [here.value] := by
  match before with
  | [] => rfl
  | [_] => rfl
  | last :: name :: _ =>
    rw [nameParts, undotted last rfl, Bool.false_and]
    rfl

theorem nameBefore_undotted (undotted : ∀ last ∈ before.head?, last.isDot = false) (here : Lexeme) :
    nameBefore (here :: before) = here.value := by
  rw [nameBefore, nameParts_undotted undotted]
  rfl

end Names

/-- A spot of a statement. -/
structure Within (lexemes : List Lexeme) (spot : Spot) : Prop where
  whole : lexemes = spot.before.reverse ++ spot.here :: spot.after
  context : spot.context = (Context.start lexemes).after spot.before.reverse

theorem Within.mem {lexemes : List Lexeme} {spot : Spot} (within : Within lexemes spot) :
    spot ∈ spots (Context.start lexemes) [] lexemes [] := by
  obtain ⟨whole, context⟩ := within
  have split := spots_append (Context.start lexemes) [] spot.before.reverse (spot.here :: spot.after) []
  rw [← whole, ← context, List.reverse_reverse] at split
  rw [split]
  have here : (⟨spot.context, spot.before ++ [], spot.here, spot.after ++ []⟩ : Spot) = spot := by
    rw [List.append_nil, List.append_nil]
  rw [spots, here]
  exact List.mem_append_right _ List.mem_cons_self

theorem here_mem {context : Context} {before part after : List Lexeme} {spot : Spot}
    (member : spot ∈ spots context before part after) :
    spot.here ∈ part := by
  induction part generalizing context before with
  | nil => cases member
  | cons lexeme part ih =>
    rcases List.mem_cons.mp member with rfl | later
    · exact List.mem_cons_self
    · exact List.mem_cons_of_mem _ (ih later)

theorem filterMap_cons {α : Type} (pass : Spot → Option α) (context : Context) (before : List Lexeme) (here : Lexeme)
    (rest after : List Lexeme) :
    (spots context before (here :: rest) after).filterMap pass =
      (pass ⟨context, before, here, rest ++ after⟩).toList ++
          (spots (context.step here) (here :: before) rest after).filterMap pass := by
  rw [spots, List.filterMap_cons]
  cases pass ⟨context, before, here, rest ++ after⟩ <;> rfl

section Spots

variable {limits : Limits} {lexemes : List Lexeme} {sequence : TokenSequence}
    (annotated : annotate limits lexemes = .ok sequence)
include annotated

/-- Every place of a statement is that of a spot. -/
theorem exists_spot {index : Nat} (inside : index < sequence.size) :
    ∃ spot, Within lexemes spot ∧ spot.before.length = index := by
  rw [size_of_annotated annotated] at inside
  refine ⟨⟨(Context.start lexemes).after (lexemes.take index), (lexemes.take index).reverse, lexemes[index],
    lexemes.drop (index + 1)⟩, ⟨?_, by rw [List.reverse_reverse]⟩, ?_⟩
  · rw [List.reverse_reverse, List.getElem_cons_drop, List.take_append_drop]
  · rw [List.length_reverse, List.length_take, Nat.min_eq_left (Nat.le_of_lt inside)]

/-- What is asked of every cursor is asked of every spot. -/
theorem filterMap_spots {α : Type} {ofCursor : Cursor → Option α} {ofSpot : Spot → Option α}
    (same : ∀ spot, Within lexemes spot → ofCursor (sequence.cursor spot.before.length) = ofSpot spot) :
    sequence.cursors.filterMap ofCursor = (spots (Context.start lexemes) [] lexemes []).filterMap ofSpot := by
  have general (before rest : List Lexeme) (whole : lexemes = before.reverse ++ rest) :
      ((List.range' before.length rest.length).map sequence.cursor).filterMap ofCursor =
        (spots ((Context.start lexemes).after before.reverse) before rest []).filterMap ofSpot := by
    induction rest generalizing before with
    | nil => rfl
    | cons here rest ih =>
      have later := ih (here :: before) (by rw [whole, List.reverse_cons, List.append_assoc]; rfl)
      have now :=
        same ⟨(Context.start lexemes).after before.reverse, before, here, rest ++ []⟩
          ⟨by rw [whole, List.append_nil], rfl⟩
      have next : (Context.start lexemes).after (here :: before).reverse =
          ((Context.start lexemes).after before.reverse).step here := by
        rw [List.reverse_cons, Context.after_append]
        rfl
      rw [next, List.length_cons] at later
      rw [List.length_cons, List.range'_succ, List.map_cons, spots, List.filterMap_cons, List.filterMap_cons, ← later]
      rw [now]
  rw [Cursor.cursors_eq_map, size_of_annotated annotated, List.range_eq_range']
  exact general [] lexemes rfl

variable {spot : Spot} (within : Within lexemes spot)
include within

theorem lastKeyword_eq : (sequence.cursor spot.before.length).lastKeyword = spot.clause := by
  have clause (context : Context) (lexeme : Lexeme) : (context.sign lexeme).clause = context.clause := by
    unfold Context.sign
    split <;> rfl
  rw [Places.lastKeyword, sign?_here annotated within.whole, Option.bind_some, clause, ← within.context, Spot.clause]

theorem isInColumnList_eq (name : spot.here.isName = true) :
    Table.isInColumnList (sequence.cursor spot.before.length) = spot.isInColumnList := by
  have plain : spot.here.side? = none := side?_of_name name
  have sign := sign?_here annotated within.whole
  rw [← within.context] at sign
  have told : spot.context.sign spot.here = ⟨spot.here, spot.here.normalized, spot.context.clause, none,
      spot.context.opened.head?.map Context.role, spot.context.outside⟩ := by rw [Context.sign, plain]
  rw [told] at sign
  rw [Places.isInColumnList sign rfl, Spot.isInColumnList]
  cases spot.context.opened.head? with
  | none => rfl
  | some frame => cases kind : frame.kind <;> simp [Context.role, kind]

theorem table?_eq : Table.name? (sequence.cursor spot.before.length) = spot.table? := by
  have here := shows_here annotated within.whole
  have next := shows_next annotated within.whole
  have previous := shows_previous annotated within.whole
  have named : (sequence.cursor spot.before.length).isName = spot.here.isName := here.isName
  have value : (sequence.cursor spot.before.length).value = spot.here.value := here.value
  unfold Table.name? Spot.table?
  cases name : spot.here.isName with
  | false => simp [named, name]
  | true =>
    simp only [named, name, lastKeyword_eq annotated within, isInColumnList_eq annotated within name, previous.isWord,
      next.isDot, previous.isDot, previous.isPunctuation, previous.isRightParen, previous.normalized, value,
      dottedName_eq annotated within.whole]
    rfl

theorem alias?_eq (tables : List String) :
    Table.alias? tables (sequence.cursor spot.before.length) = spot.alias? tables := by
  have here := shows_here annotated within.whole
  have next := shows_next annotated within.whole
  have previous := shows_previous annotated within.whole
  have named : (sequence.cursor spot.before.length).isName = spot.here.isName := here.isName
  have value : (sequence.cursor spot.before.length).value = spot.here.value := here.value
  have table : (if (sequence.cursor spot.before.length).previous.isWord "AS" then
      (sequence.cursor spot.before.length).previous.previous
        else (sequence.cursor spot.before.length).previous).dottedName = spot.aliased := by
    rw [previous.isWord, Spot.aliased, Spot.previous]
    cases before : spot.before with
    | nil =>
      have whole := within.whole
      rw [before] at whole
      simpa using previous_dottedName annotated whole
    | cons last rest =>
      have whole := within.whole
      rw [before] at whole
      obtain ⟨same, earlier⟩ := previous_of_split annotated whole
      rw [same, List.head?_cons, Option.any_some]
      split
      · exact previous_dottedName annotated earlier
      · exact dottedName_eq annotated earlier
  unfold Table.alias? Spot.alias?
  simp only [named, lastKeyword_eq annotated within, next.isWord, next.isDot, previous.isDot, value, table]
  rfl

omit within in
theorem names_eq (withNames : List String) : Table.names sequence withNames =
    (distinct ((spots (Context.start lexemes) [] lexemes []).filterMap Spot.table?)).filter
        (!withNames.contains ·) := by
  rw [Table.names, filterMap_spots annotated fun _ within => table?_eq annotated within]

omit within in
theorem aliases_eq (tables : List String) : Table.aliases sequence tables =
    NameMap.ofPairs ((spots (Context.start lexemes) [] lexemes []).filterMap (Spot.alias? tables)) := by
  rw [Table.aliases, filterMap_spots annotated fun _ within => alias?_eq annotated within tables]

end Spots

end QueryFacts.Proofs.Spots

import Mathlib.Data.List.TakeWhile
import QueryFacts.Proofs.Selections.Bodies
import QueryFacts.Proofs.Union

/-! The columns of a table that is created. The first parenthesis after the name of the table is the only
one that is taken for a list of columns, and only the commas that stand in it and in no parenthesis of
its own part its items, so each item gives the column that it begins with. -/

namespace QueryFacts
open Proofs.Parenthesis Proofs.NestingRun

/-- The keyword `word`, which is given in upper case, without quotes. -/
structure Lexeme.IsBareWord (word : String) (lexeme : Lexeme) : Prop where
  word : lexeme.isWord word = true
  bare : lexeme.quote = none

/-- An item of a list: its parentheses belong together, and commas stand only within them. -/
structure IsItem (item : List Lexeme) : Prop where
  written : item ≠ []
  balanced : Balanced (sides item)
  whole : ∀ place lexeme, item[place]? = some lexeme → lexeme.isPunctuation "," = true → heightAt (sides item) place ≠ 0

theorem isItem_iff {item : List Lexeme} : IsItem item ↔ item ≠ [] ∧
    ((∀ place < item.length + 1, 0 ≤ heightAt (sides item) place) ∧ height (sides item) = 0) ∧
      ∀ place < item.length, item[place]?.any (·.isPunctuation ",") = true → heightAt (sides item) place ≠ 0 := by
  have length : (sides item).length = item.length := List.length_map _
  have balanced := balanced_take_iff (sides item) item.length
  rw [← length, List.take_length, heightAt_length] at balanced
  constructor
  · rintro ⟨written, closes, whole⟩
    obtain ⟨above, level⟩ := balanced.mp closes
    refine ⟨written, ⟨fun place early => above place (by omega), level⟩, fun place early comma => ?_⟩
    rw [List.getElem?_eq_getElem early, Option.any_some] at comma
    exact whole place _ (List.getElem?_eq_getElem early) comma
  · rintro ⟨written, ⟨above, level⟩, whole⟩
    refine ⟨written, balanced.mpr ⟨fun place early => above place (by omega), level⟩,
      fun place lexeme found comma => ?_⟩
    refine whole place (List.getElem?_eq_some_iff.mp found).1 ?_
    rw [found, Option.any_some, comma]

instance (item : List Lexeme) : Decidable (IsItem item) := decidable_of_iff _ isItem_iff.symm

/-- The column that an item of a table definition declares. -/
def declared? (item : List Lexeme) : Option Column.Reference :=
  item.head?.bind fun first =>
    if first.isName && !Keyword.isTableConstraint first.normalized then
      some (.column [first.value] first.value none) else none

/-- CREATE TABLE, a name, items between parentheses with commas before all but the first, and anything after them. -/
structure ColumnCreation where
  create : Lexeme
  temporary : Option Lexeme
  table : Lexeme
  qualifiers : List Lexeme := []
  name : Lexeme
  opening : Lexeme
  item : List Lexeme
  more : List (Lexeme × List Lexeme)
  closing : Lexeme
  rest : List Lexeme

namespace ColumnCreation

def head (creation : ColumnCreation) : List Lexeme :=
  creation.create :: (creation.temporary.toList ++ creation.table :: (creation.qualifiers ++ [creation.name]))

/-- Items with the commas before all but the first. -/
def joined (item : List Lexeme) (more : List (Lexeme × List Lexeme)) : List Lexeme :=
  item ++ more.flatMap fun entry => entry.1 :: entry.2

def inner (creation : ColumnCreation) : List Lexeme := joined creation.item creation.more

def lexemes (creation : ColumnCreation) : List Lexeme :=
  creation.head ++ creation.opening :: (creation.inner ++ creation.closing :: creation.rest)

def items (creation : ColumnCreation) : List (List Lexeme) := creation.item :: creation.more.map (·.2)

structure WellFormed (creation : ColumnCreation) : Prop where
  create : creation.create.IsBareWord "CREATE"
  temporary : ∀ word ∈ creation.temporary, word.IsBareWord "TEMPORARY"
  table : creation.table.IsBareWord "TABLE"
  qualifiers : ∀ lexeme ∈ creation.qualifiers, lexeme.isName = true ∨ lexeme.isDot = true
  name : creation.name.isName = true
  opening : creation.opening.isPunctuation "(" = true
  items : ∀ item ∈ creation.items, IsItem item
  commas : ∀ entry ∈ creation.more, entry.1.isPunctuation "," = true
  closing : creation.closing.isPunctuation ")" = true

end ColumnCreation

end QueryFacts

namespace QueryFacts.Proofs.CreatedColumns
open Lexeme Parenthesis NestingRun Signs Spots

section Head

variable {lexeme : Lexeme} {context : Context} {word : String}

theorem normalized_of_word (letters : word.toList.all (·.isUpper) = true) (bare : lexeme.IsBareWord word) :
    lexeme.isKeyword = true ∧ lexeme.normalized = word := by
  obtain ⟨isWord, quote⟩ := bare
  have keyword : lexeme.isKeyword = true := ((Bool.and_eq_true _ _).mp isWord).1
  have kind : lexeme.kind = .keyword := by simpa [isKeyword] using keyword
  refine ⟨keyword, ?_⟩
  rw [normalized, kind, quote]
  exact Spelling.normalForm_of_spelling letters (Spelling.spelling_of_isWord isWord)

theorem value_ne_paren (bare : lexeme.IsBareWord "CREATE") : lexeme.value ≠ "(" := by
  intro same
  have isWord := bare.word
  rw [Lexeme.isWord, same] at isWord
  simp at isWord

/-- Neither a parenthesis nor a keyword that could make the next parenthesis something else than a list of columns. -/
def Plain (lexeme : Lexeme) : Prop :=
  lexeme.side? = none ∧ (lexeme.isKeyword = true → lexeme.normalized ≠ "WITH" ∧ lexeme.normalized ≠ "SELECT")

theorem plain_of_word (letters : word.toList.all (·.isUpper) = true) (other : word ≠ "WITH" ∧ word ≠ "SELECT")
    (bare : lexeme.IsBareWord word) : Plain lexeme := by
  obtain ⟨keyword, normalized⟩ := normalized_of_word letters bare
  exact ⟨side?_of_keyword keyword, fun _ => normalized ▸ other⟩

theorem plain_of_name (named : lexeme.isName = true ∨ lexeme.isDot = true) : Plain lexeme := by
  have kind : lexeme.kind = .name ∨ lexeme.kind = .dot := by simpa [isName, isDot] using named
  rcases kind with kind | kind <;> exact ⟨by simp [Lexeme.side?, isPunctuation, kind], by simp [isKeyword, kind]⟩

/-- The column list of a table is still to come, outside of all parentheses and queries. -/
structure Awaiting (context : Context) : Prop where
  opened : context.opened = []
  headers : context.headers = []
  awaits : context.awaitsColumns = true
  clause : context.clause ≠ some "SELECT"

theorem Awaiting.step (awaiting : Awaiting context) (plain : Plain lexeme) : Awaiting (context.step lexeme) := by
  obtain ⟨opened, headers, awaits, clause⟩ := awaiting
  obtain ⟨side, other⟩ := plain
  cases keyword : lexeme.isKeyword with
  | false =>
    have same : context.step lexeme = { context with last := some lexeme } := by simp [Context.step, side, keyword]
    rw [same]
    exact ⟨opened, headers, awaits, clause⟩
  | true =>
    obtain ⟨noWith, noSelect⟩ := other keyword
    have same : context.step lexeme = { context with
        last := some lexeme
        clause := if Keyword.isInsignificant lexeme.normalized then context.clause else some lexeme.normalized
        outside := if Keyword.isInsignificant lexeme.normalized then context.outside else false
        headers := context.headersAfter lexeme.normalized } := by simp [Context.step, side, keyword]
    rw [same]
    refine ⟨opened, by simp [Context.headersAfter, noWith, headers], awaits, ?_⟩
    dsimp only
    split
    · exact clause
    · exact fun same => noSelect (Option.some.inj same)

theorem Awaiting.after (awaiting : Awaiting context) {part : List Lexeme} (plain : ∀ lexeme ∈ part, Plain lexeme) :
    Awaiting (context.after part) := by
  induction part generalizing context with
  | nil => exact awaiting
  | cons lexeme part ih =>
    obtain ⟨here, others⟩ := List.forall_mem_cons.mp plain
    exact ih (awaiting.step here) others

/-- The parenthesis behind a name opens the list, if that is still to come. -/
theorem parenKind_awaiting (awaiting : Awaiting context) {name : Lexeme} (last : context.last = some name)
    (named : name.isName = true) : context.parenKind = .createTableColumns := by
  obtain ⟨opened, headers, awaits, clause⟩ := awaiting
  have kind : name.kind = .name := by simpa [isName] using named
  have noSelect : context.clause.any (· == "SELECT") = false := by
    cases found : context.clause with
    | none => rfl
    | some word => exact beq_eq_false_iff_ne.mpr fun same => clause (found.trans (congrArg some same))
  simp [Context.parenKind, last, isKeyword, kind, headers, opened, awaits, noSelect]

/-- Later parentheses are no such lists. -/
theorem parenKind_ne (never : context.awaitsColumns = false) : context.parenKind ≠ .createTableColumns := by
  unfold Context.parenKind
  rw [never]
  simp only [Bool.false_and, Bool.false_eq_true, if_false]
  repeat' split
  all_goals exact nofun

end Head

section Inside

variable {base : List Frame} {depth : Nat} {context : Context} {lexeme : Lexeme} {part : List Lexeme}

theorem side?_of_comma (comma : lexeme.isPunctuation "," = true) : lexeme.side? = none := by
  simp only [isPunctuation, Bool.and_eq_true, beq_iff_eq] at comma
  simp [Lexeme.side?, isPunctuation, comma.2]

/-- What a lexeme is said to open. -/
theorem sign_opens {kind : ParenKind} : (context.sign lexeme).paren = some ⟨kind, .opening⟩ ↔
    lexeme.side? = some .opening ∧ context.parenKind = kind := by
  unfold Context.sign
  split
  next side => simp [side]
  next side _ => simp [side]
  next other _ =>
    refine iff_of_false nofun fun found => ?_
    exact other found.1

/-- On the parentheses of `base` stand `depth` others, and none of them is a list of columns. -/
def Inside (base : List Frame) (depth : Nat) (context : Context) : Prop :=
  context.awaitsColumns = false ∧ ∃ nested : List Frame, context.opened = nested ++ base ∧ nested.length = depth ∧
    ∀ frame ∈ nested, frame.kind ≠ .createTableColumns

theorem Inside.opening (inside : Inside base depth context) (side : lexeme.side? = some .opening) :
    Inside base (depth + 1) (context.step lexeme) := by
  obtain ⟨never, nested, opened, length, others⟩ := inside
  refine ⟨Union.awaits_step lexeme never, ⟨context.parenKind, context.clause, context.outside⟩ :: nested, ?_, ?_, ?_⟩
  · simp only [Context.step, side, opened, List.cons_append]
  · rw [List.length_cons, length]
  · exact List.forall_mem_cons.mpr ⟨parenKind_ne never, others⟩

theorem Inside.closing (inside : Inside base (depth + 1) context) (side : lexeme.side? = some .closing) :
    Inside base depth (context.step lexeme) := by
  obtain ⟨never, nested, opened, length, others⟩ := inside
  obtain ⟨frame, nested, rfl⟩ := List.exists_cons_of_length_eq_add_one length
  refine ⟨Union.awaits_step lexeme never, nested, ?_, Nat.succ.inj length, (List.forall_mem_cons.mp others).2⟩
  simp only [Context.step, side, opened, List.cons_append]

theorem Inside.passing (inside : Inside base depth context) (side : lexeme.side? = none) :
    Inside base depth (context.step lexeme) := by
  obtain ⟨never, nested, opened, rest⟩ := inside
  refine ⟨Union.awaits_step lexeme never, nested, ?_, rest⟩
  unfold Context.step
  rw [side]
  dsimp only
  split <;> exact opened

theorem inside_step (awaiting : Awaiting context) {name : Lexeme} (last : context.last = some name)
    (named : name.isName = true)
    (side : lexeme.side? = some .opening) :
    ∃ frame : Frame, frame.kind = .createTableColumns ∧ Inside [frame] 0 (context.step lexeme) := by
  have kind := parenKind_awaiting awaiting last named
  refine ⟨⟨.createTableColumns, context.clause, context.outside⟩, rfl, ?_, [], ?_, rfl, List.forall_mem_nil _⟩
  · simp [Context.step, side, kind]
  · simp [Context.step, side, kind, awaiting.opened]

/-- Within a part that balances as many parentheses are open as its height says. -/
theorem Inside.take (inside : Inside base 0 context) (balanced : Balanced (sides part)) {place : Nat}
    (early : place ≤ part.length) :
    Inside base (heightAt (sides part) place).toNat (context.after (part.take place)) := by
  induction place with
  | zero => exact inside
  | succ place ih =>
    have found := List.getElem?_eq_getElem early
    have level := heightAt_succ (side_at found)
    have here : 0 ≤ heightAt (sides part) place := balanced.before place
    have next : 0 ≤ heightAt (sides part) (place + 1) := balanced.before (place + 1)
    have before := ih (Nat.le_of_succ_le early)
    rw [List.take_add_one, found, Context.after_append]
    change Inside base _ ((context.after (part.take place)).step part[place])
    cases side : part[place].side? with
    | none =>
      rw [side, rise, Int.add_zero] at level
      rw [level]
      exact before.passing side
    | some side' =>
      cases side' with
      | opening =>
        rw [side, rise] at level
        rw [level, show (heightAt (sides part) place + 1).toNat = (heightAt (sides part) place).toNat + 1 by omega]
        exact before.opening side
      | closing =>
        rw [side, rise] at level
        rw [show (heightAt (sides part) place).toNat = (heightAt (sides part) (place + 1)).toNat + 1 by omega] at before
        exact before.closing side

theorem Inside.whole (inside : Inside base 0 context) (balanced : Balanced (sides part)) :
    Inside base 0 (context.after part) := by
  have all := inside.take balanced (Nat.le_refl part.length)
  have length : (sides part).length = part.length := List.length_map _
  rwa [List.take_length, ← length, heightAt_length, balanced.whole] at all

end Inside

/-- A comma of the list itself, which opens at a cursor. -/
def separates (opening cursor : Cursor) : Bool := cursor.isComma && cursor.enclosing.index == opening.index

section Items

variable {parts : Cursor → Bool} {start border : Cursor} {others rest : List Cursor}

/-- A run without separators is one item. -/
theorem itemStarts_single (none : ∀ cursor ∈ others, parts cursor = false) :
    Column.itemStarts parts (start :: others) = [start] := by
  have all : others.dropWhile (!parts ·) = [] :=
    List.dropWhile_eq_nil_iff.mpr fun cursor member => by rw [none cursor member]; rfl
  rw [Column.itemStarts, all, List.drop_nil, Column.itemStarts]

/-- An item goes up to the first separator behind its start. -/
theorem itemStarts_cons (none : ∀ cursor ∈ others, parts cursor = false) (ends : parts border = true) :
    Column.itemStarts parts (start :: (others ++ border :: rest)) = start :: Column.itemStarts parts rest := by
  have stops : (others ++ border :: rest).dropWhile (!parts ·) = border :: rest := by
    rw [List.dropWhile_append_of_pos fun cursor member => by rw [none cursor member]; rfl]
    exact List.dropWhile_cons_of_neg (by rw [ends]; exact Bool.false_ne_true)
  rw [Column.itemStarts, stops, List.drop_one, List.tail_cons]

end Items

section Statement

variable {creation : ColumnCreation} (formed : creation.WellFormed)
include formed

private theorem plain_head : ∀ lexeme ∈ creation.head, Plain lexeme := by
  have letters : ∀ word ∈ ["CREATE", "TEMPORARY", "TABLE"],
      word.toList.all (·.isUpper) = true ∧ word ≠ "WITH" ∧ word ≠ "SELECT" := by
    decide
  have word {word : String} (known : word ∈ ["CREATE", "TEMPORARY", "TABLE"]) {lexeme : Lexeme}
      (bare : lexeme.IsBareWord word) :
      Plain lexeme := plain_of_word (letters word known).1 (letters word known).2 bare
  intro lexeme member
  rcases List.mem_cons.mp member with rfl | member
  · exact word (by decide) formed.create
  rcases List.mem_append.mp member with temporary | member
  · exact word (by decide) (formed.temporary lexeme (Option.mem_toList.mp temporary))
  rcases List.mem_cons.mp member with rfl | member
  · exact word (by decide) formed.table
  rcases List.mem_append.mp member with qualifier | name
  · exact plain_of_name (formed.qualifiers lexeme qualifier)
  · obtain rfl := List.mem_singleton.mp name
    exact plain_of_name (.inl formed.name)

private theorem isCreateTable_lexemes : Lexeme.isCreateTable creation.lexemes = true := by
  have keyword {lexeme : Lexeme} {word : String} (bare : lexeme.IsBareWord word) : lexeme.isKeyword = true :=
    ((Bool.and_eq_true _ _).mp bare.word).1
  have other : creation.table.isWord "TEMPORARY" = false := by
    have value := formed.table.word
    simp only [Lexeme.isWord, Bool.and_eq_true, beq_iff_eq] at value
    rw [Lexeme.isWord, value.2]
    exact Bool.and_false _
  rw [ColumnCreation.lexemes, ColumnCreation.head, Lexeme.isCreateTable, List.cons_append,
    List.filter_cons_of_pos (keyword formed.create)]
  cases found : creation.temporary with
  | none =>
    rw [Option.toList_none, List.nil_append, List.cons_append, List.filter_cons_of_pos (keyword formed.table)]
    simp [formed.create.word, formed.table.word, other]
  | some temporary =>
    have bare := formed.temporary temporary found
    rw [Option.toList_some, List.singleton_append, List.cons_append, List.cons_append,
      List.filter_cons_of_pos (keyword bare), List.filter_cons_of_pos (keyword formed.table)]
    simp [formed.create.word, formed.table.word, bare.word]

private theorem awaiting_head : Awaiting ((Context.start creation.lexemes).after creation.head) :=
  Awaiting.after ⟨rfl, rfl, isCreateTable_lexemes formed, by simp [Context.start]⟩ (plain_head formed)

omit formed in
private theorem last_head : ((Context.start creation.lexemes).after creation.head).last = some creation.name := by
  have split : creation.head =
      (creation.create :: (creation.temporary.toList ++ creation.table :: creation.qualifiers)) ++ [creation.name] := by
    simp [ColumnCreation.head]
  rw [split, Context.after_append]
  exact Context.last_step _ creation.name

/-- The list of columns is the innermost parenthesis of what comes first in it. -/
private theorem inside_opening : ∃ frame : Frame, frame.kind = .createTableColumns ∧
    Inside [frame] 0 ((Context.start creation.lexemes).after (creation.head ++ [creation.opening])) := by
  rw [Context.after_append]
  exact inside_step (awaiting_head formed) last_head formed.name (side?_eq_opening.mpr formed.opening)

variable {limits : Limits} {sequence : TokenSequence} (annotated : annotate limits creation.lexemes = .ok sequence)
include annotated

/-- No other parenthesis of the statement is taken for a list of columns. -/
theorem opens_iff {index : Nat} :
    (sequence.cursor index).opens .createTableColumns = true ↔ index = creation.head.length := by
  have opening : creation.lexemes[creation.head.length]? = some creation.opening := by
    rw [ColumnCreation.lexemes, List.getElem?_append_right (Nat.le_refl _), Nat.sub_self]
    rfl
  rw [Cursor.opens, beq_iff_eq, Places.paren?, sign?_cursor annotated, Context.signs_getElem?]
  constructor
  · intro opens
    obtain ⟨sign, signed, paren⟩ := Option.bind_eq_some_iff.mp opens
    obtain ⟨lexeme, found, rfl⟩ := Option.map_eq_some_iff.mp signed
    obtain ⟨side, kind⟩ := sign_opens.mp paren
    rcases Nat.lt_trichotomy index creation.head.length with before | same | later
    · rw [ColumnCreation.lexemes, List.getElem?_append_left before] at found
      cases side.symm.trans (plain_head formed lexeme (List.mem_of_getElem? found)).1
    · exact same
    · have taken : creation.lexemes.take index = (creation.head ++ [creation.opening]) ++
          (creation.inner ++ creation.closing :: creation.rest).take (index - (creation.head.length + 1)) := by
        have parts : creation.lexemes =
            (creation.head ++ [creation.opening]) ++ (creation.inner ++ creation.closing :: creation.rest) := by
          simp [ColumnCreation.lexemes]
        rw [parts, List.take_append, List.take_of_length_le (by simp; omega), List.length_append, List.length_singleton]
      obtain ⟨frame, -, inside⟩ := inside_opening formed
      rw [taken, Context.after_append] at kind
      exact absurd kind (parenKind_ne (Union.awaits_after _ inside.1))
  · rintro rfl
    rw [opening, ColumnCreation.lexemes, List.take_left' rfl]
    exact sign_opens.mpr ⟨side?_eq_opening.mpr formed.opening,
      parenKind_awaiting (awaiting_head formed) last_head formed.name⟩

omit formed in
private theorem head_lt_size : creation.head.length < sequence.size := by
  rw [size_of_annotated annotated, ColumnCreation.lexemes, List.length_append, List.length_cons]
  omega

/-- A token stands in the list itself if it stands in a list of columns. -/
theorem enclosing_iff (index : Nat) :
    (sequence.cursor index).enclosing.index = (sequence.cursor creation.head.length).index ↔
    (sequence.cursor index).enclosing.opens .createTableColumns = true := by
  have at_ : sequence.cursor creation.head.length = ⟨sequence, some creation.head.length⟩ :=
    Cursor.cursor_of_lt (head_lt_size annotated)
  rw [at_]
  constructor
  · intro same
    have there : (sequence.cursor index).enclosing = sequence.cursor creation.head.length := by
      rw [at_, Cursor.enclosing]
      exact congrArg (Cursor.mk sequence) same
    rw [there]
    exact (opens_iff formed annotated).mpr rfl
  · intro opens
    obtain ⟨token, stored, -⟩ := Option.bind_eq_some_iff.mp (beq_iff_eq.mp opens)
    obtain ⟨place, there, found⟩ := Option.bind_eq_some_iff.mp stored
    have inside : place < sequence.size := (Array.getElem?_eq_some_iff.mp found).1
    have here : (sequence.cursor index).enclosing = sequence.cursor place := by
      rw [Cursor.cursor_of_lt inside, Cursor.enclosing]
      exact congrArg (Cursor.mk sequence) there
    rw [here] at opens
    rw [there, (opens_iff formed annotated).mp opens]

variable {front after : List Lexeme} {here : Lexeme} {frame : Frame} {depth : Nat}

omit formed annotated in
private theorem getElem?_split (whole : creation.lexemes = front ++ here :: after) :
    creation.lexemes[front.length]? = some here := by
  rw [whole, List.getElem?_append_right (Nat.le_refl _), Nat.sub_self]
  rfl

/-- A token stands in the list itself if no other parenthesis is open around it. -/
private theorem enclosed_iff (whole : creation.lexemes = front ++ here :: after)
    (list : frame.kind = .createTableColumns)
    (inside : Inside [frame] depth ((Context.start creation.lexemes).after front)) (side : here.side? = none) :
    (sequence.cursor front.length).enclosing.index = (sequence.cursor creation.head.length).index ↔ depth = 0 := by
  have taken : creation.lexemes.take front.length = front := by rw [whole, List.take_left' rfl]
  obtain ⟨-, nested, opened, rfl, others⟩ := inside
  have around : (sequence.cursor front.length).enclosing.paren? = (nested ++ [frame]).head?.map Context.role := by
    rw [Places.enclosing, sign?_cursor annotated, Context.signs_getElem?, getElem?_split whole, taken, Option.map_some,
      Option.bind_some, Context.sign, side, opened]
  rw [enclosing_iff formed annotated, Cursor.opens, around, beq_iff_eq]
  cases nested with
  | nil => simp [Context.role, list]
  | cons nearest nested => simp [Context.role, others nearest List.mem_cons_self]

/-- The items are parted by the commas outside of all parentheses in the list. -/
theorem separates_eq (whole : creation.lexemes = front ++ here :: after) (list : frame.kind = .createTableColumns)
    (inside : Inside [frame] depth ((Context.start creation.lexemes).after front)) :
    separates (sequence.cursor creation.head.length) (sequence.cursor front.length) =
        (here.isPunctuation "," && depth == 0) := by
  have comma : (sequence.cursor front.length).isComma = here.isPunctuation "," := by
    rw [(shows_cursor annotated front.length).isComma, getElem?_split whole, Option.any_some]
  rw [separates, comma]
  cases isComma : here.isPunctuation "," with
  | false => rfl
  | true =>
    rw [Bool.true_and, Bool.true_and, Bool.eq_iff_iff, beq_iff_eq, beq_iff_eq]
    exact enclosed_iff formed annotated whole list inside (side?_of_comma isComma)

/-- The tokens of `part`, which stands behind `front`. -/
private def cursorsOf (sequence : TokenSequence) (front part : List Lexeme) : List Cursor :=
  (List.range' front.length part.length).map sequence.cursor

omit formed annotated in
private theorem cursorsOf_append (front first second : List Lexeme) :
    cursorsOf sequence front (first ++ second) =
        cursorsOf sequence front first ++ cursorsOf sequence (front ++ first) second := by
  rw [cursorsOf, cursorsOf, cursorsOf, List.length_append, List.length_append, ← List.range'_append_1, List.map_append]

omit formed annotated in
private theorem cursorsOf_cons (front : List Lexeme) (here : Lexeme) (part : List Lexeme) :
    cursorsOf sequence front (here :: part) =
        sequence.cursor front.length :: cursorsOf sequence (front ++ [here]) part := by
  rw [cursorsOf, cursorsOf, List.length_cons, List.range'_succ, List.map_cons, List.length_append,
    List.length_singleton]

/-- No comma within an item parts it. -/
private theorem separates_item {first : Lexeme} {others : List Lexeme} (item : IsItem (first :: others))
    (whole : creation.lexemes = front ++ (first :: others ++ after)) (list : frame.kind = .createTableColumns)
    (inside : Inside [frame] 0 ((Context.start creation.lexemes).after front)) :
    ∀ cursor ∈ cursorsOf sequence (front ++ [first]) others,
      separates (sequence.cursor creation.head.length) cursor = false := by
  intro cursor member
  obtain ⟨index, there, rfl⟩ := List.mem_map.mp member
  obtain ⟨later, early⟩ := List.mem_range'_1.mp there
  rw [List.length_append, List.length_singleton] at later early
  obtain ⟨place, rfl⟩ := Nat.exists_eq_add_of_le later
  have bound : place + 1 < (first :: others).length := by rw [List.length_cons]; omega
  have found := List.getElem?_eq_getElem bound
  have split : creation.lexemes = (front ++ (first :: others).take (place + 1)) ++
      (first :: others)[place + 1] :: ((first :: others).drop (place + 2) ++ after) := by
    have parts :
        (first :: others).take (place + 1) ++ (first :: others)[place + 1] :: (first :: others).drop (place + 2) =
        first :: others := by rw [List.getElem_cons_drop, List.take_append_drop]
    calc creation.lexemes = front ++ (((first :: others).take (place + 1) ++
          (first :: others)[place + 1] :: (first :: others).drop (place + 2)) ++ after) := by rw [parts]; exact whole
      _ = _ := by simp only [List.append_assoc, List.cons_append]
  have length : (front ++ (first :: others).take (place + 1)).length = front.length + 1 + place := by
    rw [List.length_append, List.length_take_of_le (Nat.le_of_lt bound)]
    omega
  have deep := inside.take item.balanced (Nat.le_of_lt bound)
  rw [← Context.after_append] at deep
  have told := separates_eq formed annotated split list deep
  rw [length] at told
  rw [told]
  cases comma : ((first :: others)[place + 1]).isPunctuation "," with
  | false => rfl
  | true =>
    have above : 0 ≤ heightAt (sides (first :: others)) (place + 1) := item.balanced.before (place + 1)
    have nested := item.whole _ _ found comma
    rw [Bool.true_and, beq_eq_false_iff_ne]
    omega

/-- The column that an item declares which starts at a cursor. -/
private def declaredAt? (cursor : Cursor) : Option Column.Reference :=
  if cursor.isName && !Keyword.isTableConstraint cursor.normalized then
    some (.column [cursor.value] cursor.value none) else none

omit formed in
private theorem declaredAt_eq {first : Lexeme} {others : List Lexeme}
    (whole : creation.lexemes = front ++ (first :: others ++ after)) :
    declaredAt? (sequence.cursor front.length) = declared? (first :: others) := by
  have shows := shows_cursor annotated front.length
  rw [getElem?_split whole] at shows
  rw [declaredAt?, shows.isName, shows.normalized, shows.value]
  rfl

/-- Every item gives the column that it begins with. -/
private theorem columns_items {item : List Lexeme} {more : List (Lexeme × List Lexeme)}
    (items : ∀ part ∈ item :: more.map (·.2), IsItem part) (commas : ∀ entry ∈ more, entry.1.isPunctuation "," = true)
    (whole : creation.lexemes = front ++ (ColumnCreation.joined item more ++ after))
    (list : frame.kind = .createTableColumns)
    (inside : Inside [frame] 0 ((Context.start creation.lexemes).after front)) :
    (Column.itemStarts (separates (sequence.cursor creation.head.length))
      (cursorsOf sequence front (ColumnCreation.joined item more))).filterMap declaredAt? =
        (item :: more.map (·.2)).filterMap declared? := by
  induction more generalizing item front with
  | nil =>
    have isItem := items item List.mem_cons_self
    obtain ⟨first, others, rfl⟩ := List.exists_cons_of_ne_nil isItem.written
    rw [ColumnCreation.joined, List.flatMap_nil, List.append_nil] at whole ⊢
    rw [cursorsOf_cons, itemStarts_single (separates_item formed annotated isItem whole list inside),
      List.filterMap_cons, declaredAt_eq annotated whole]
    rfl
  | cons entry more ih =>
    obtain ⟨comma, next⟩ := entry
    obtain ⟨isItem, others'⟩ := List.forall_mem_cons.mp items
    obtain ⟨isComma, commas⟩ := List.forall_mem_cons.mp commas
    obtain ⟨first, others, rfl⟩ := List.exists_cons_of_ne_nil isItem.written
    have parts : ColumnCreation.joined (first :: others) ((comma, next) :: more) =
        first :: others ++ comma :: ColumnCreation.joined next more := rfl
    rw [parts] at whole ⊢
    have start :
        creation.lexemes = front ++ (first :: others ++ (comma :: ColumnCreation.joined next more ++ after)) := by
      rw [whole, List.append_assoc]
    have border :
        creation.lexemes = (front ++ first :: others) ++ comma :: (ColumnCreation.joined next more ++ after) := by
      rw [start, List.append_assoc]
      rfl
    have behind :
        creation.lexemes = (front ++ first :: others ++ [comma]) ++ (ColumnCreation.joined next more ++ after) := by
      rw [border, List.append_assoc _ [comma]]
      rfl
    have past := inside.whole isItem.balanced
    rw [← Context.after_append] at past
    have separated := separates_eq formed annotated border list past
    have later := past.passing (side?_of_comma isComma)
    rw [isComma] at separated
    rw [cursorsOf_append, cursorsOf_cons, cursorsOf_cons, List.cons_append,
      itemStarts_cons (separates_item formed annotated isItem start list inside) separated, List.filterMap_cons,
      declaredAt_eq annotated start, ih others' commas behind (by rw [Context.after_append]; exact later)]
    rfl

omit annotated in
private theorem balanced_inner : Balanced (sides creation.inner) := by
  have joined (item : List Lexeme)
      (more : List (Lexeme × List Lexeme)) (items : ∀ part ∈ item :: more.map (·.2), IsItem part)
      (commas : ∀ entry ∈ more, entry.1.isPunctuation "," = true) :
      Balanced (sides (ColumnCreation.joined item more)) := by
    induction more generalizing item with
    | nil =>
      rw [ColumnCreation.joined, List.flatMap_nil, List.append_nil]
      exact (items item List.mem_cons_self).balanced
    | cons entry more ih =>
      obtain ⟨comma, next⟩ := entry
      obtain ⟨isItem, others⟩ := List.forall_mem_cons.mp items
      obtain ⟨isComma, commas⟩ := List.forall_mem_cons.mp commas
      have border : Balanced (sides [comma]) :=
        (Selections.shallow_level (List.forall_mem_singleton.mpr (side?_of_comma isComma)) 0).balanced
      have parts : sides (ColumnCreation.joined item ((comma, next) :: more)) =
          sides item ++ (sides [comma] ++ sides (ColumnCreation.joined next more)) := by
        simp [ColumnCreation.joined, sides]
      rw [parts]
      exact Selections.balanced_append isItem.balanced (Selections.balanced_append border (ih next others commas))
  exact joined creation.item creation.more formed.items formed.commas

/-- The tokens between the parentheses of the list are those of its items. -/
private theorem between_eq :
    (sequence.cursor creation.head.length).between (sequence.cursor creation.head.length).matching =
    cursorsOf sequence (creation.head ++ [creation.opening]) creation.inner := by
  have nested := WellNested.annotate_wellNested annotated
  have same : sequence.sides = sides creation.lexemes := WellNested.sides_annotated annotated
  have whole : sides creation.lexemes =
      sides creation.head ++ some .opening :: (sides creation.inner ++ some .closing :: sides creation.rest) := by
    simp [ColumnCreation.lexemes, sides, side?_eq_opening.mpr formed.opening, side?_eq_closing.mpr formed.closing]
  have length (part : List Lexeme) : (sides part).length = part.length := List.length_map _
  have pair : sequence.Pair creation.head.length (creation.head.length + creation.inner.length + 1) := by
    have around := pair_around (sides creation.head) (balanced_inner formed) (sides creation.rest)
    rwa [← whole, ← same, length, length] at around
  have size : creation.head.length + creation.inner.length + 1 < sequence.size := by
    rw [size_of_annotated annotated, ColumnCreation.lexemes]
    simp only [List.length_append, List.length_cons]
    omega
  rw [(WellNested.matching_of_pair nested pair).1, Cursor.cursor_of_lt (head_lt_size annotated),
    Cursor.cursor_of_lt size, cursorsOf, List.length_append, List.length_singleton]
  have count :
      creation.head.length + creation.inner.length + 1 - (creation.head.length + 1) = creation.inner.length := by omega
  rw [Cursor.between]
  dsimp only
  rw [count]
  refine List.map_congr_left fun index member => ?_
  have bounds := List.mem_range'_1.mp member
  exact (Cursor.cursor_of_lt (by omega)).symm

private theorem filter_cursors :
    sequence.cursors.filter (·.opens .createTableColumns) = [sequence.cursor creation.head.length] := by
  have here : creation.head.length ∈ List.range sequence.size := List.mem_range.mpr (head_lt_size annotated)
  have only (index : Nat) : (sequence.cursor index).opens .createTableColumns = (index == creation.head.length) := by
    rw [Bool.eq_iff_iff, opens_iff formed annotated, beq_iff_eq]
  rw [Cursor.cursors_eq_map, List.filter_map]
  simp only [Function.comp_def, only]
  rw [List.filter_beq, List.count_eq_one_of_mem List.nodup_range here]
  rfl

/-- The columns of a table that is created are the ones that its items begin with. -/
theorem defined_eq : Column.defined sequence = creation.items.filterMap declared? := by
  obtain ⟨frame, list, inside⟩ := inside_opening formed
  have whole : creation.lexemes = (creation.head ++ [creation.opening]) ++
      (ColumnCreation.joined creation.item creation.more ++ creation.closing :: creation.rest) := by
    simp [ColumnCreation.lexemes, ColumnCreation.inner]
  have found := columns_items formed annotated formed.items formed.commas whole list inside
  rw [Column.defined, filter_cursors formed annotated, List.flatMap_singleton, ColumnCreation.items, ← found]
  dsimp only
  rw [between_eq formed annotated, ← List.filterMap_eq_map, List.filterMap_filter]
  rfl

theorem kind_creation : StatementKind.ofTokens sequence = .ok .create := by
  have create := (normalized_of_word (by decide) formed.create).2
  have table := (normalized_of_word (by decide) formed.table).2
  cases found : creation.temporary with
  | none =>
    have begins : creation.lexemes = creation.create :: creation.table :: (creation.qualifiers ++ creation.name ::
        creation.opening :: (creation.inner ++ creation.closing :: creation.rest)) := by
      simp [ColumnCreation.lexemes, ColumnCreation.head, found]
    refine Unnested.kind_of_annotated annotated begins (value_ne_paren formed.create) ?_
    rw [create, table]
    simp [StatementKind.ofWords?]
  | some temporary =>
    have begins :
        creation.lexemes = creation.create :: temporary :: creation.table :: (creation.qualifiers ++ creation.name ::
        creation.opening :: (creation.inner ++ creation.closing :: creation.rest)) := by
      simp [ColumnCreation.lexemes, ColumnCreation.head, found]
    refine Unnested.kind_of_annotated annotated begins (value_ne_paren formed.create) ?_
    rw [create, (normalized_of_word (by decide) (formed.temporary temporary found)).2, List.head?_cons, Option.map_some,
      Option.getD_some, table]
    rfl

/-- The columns of a table that is created are under no clause, and no spelling is known for them. -/
theorem scan_creation : StatementKind.ofTokens sequence = .ok .create ∧ ∀ tableAliases aliasNames declared bodies,
    Column.scan sequence .create tableAliases aliasNames declared bodies =
      .ok { references := creation.items.filterMap declared?, known := {} } := by
  refine ⟨kind_creation formed annotated, fun tableAliases aliasNames declared bodies => ?_⟩
  rw [Column.scan, if_pos rfl, defined_eq formed annotated]

end Statement

/-- Neither the commas within types and checks begin items, nor does anything after the list. -/
theorem scan_creation_nested : ∃ sequence,
    queryTokens {} "CREATE TEMPORARY TABLE db.t (id INT(11, 2), CHECK (f(a, b), c), v INT) g(x, y)" = .ok sequence ∧
      StatementKind.ofTokens sequence = .ok .create ∧ Column.scan sequence .create {} [] [] {} =
        .ok { references := [.column ["id"] "id" none, .column ["v"] "v" none], known := {} } := by
  let name (text : String) (apart : Bool) : Lexeme := ⟨.name, text, none, apart⟩
  let mark (text : String) (apart : Bool) : Lexeme := ⟨.punctuation, text, none, apart⟩
  let creation : ColumnCreation := {
    create := ⟨.keyword, "CREATE", none, true⟩
    temporary := some ⟨.keyword, "TEMPORARY", none, true⟩
    table := ⟨.keyword, "TABLE", none, true⟩
    qualifiers := [name "db" true, ⟨.dot, ".", none, false⟩]
    name := name "t" false
    opening := mark "(" true
    item := [name "id" false, name "INT" true, mark "(" false, ⟨.integer, "11", none, false⟩, mark "," false,
      ⟨.integer, "2", none, true⟩, mark ")" false]
    more := [
      (mark "," false,
        [name "CHECK" true, mark "(" true, name "f" false, mark "(" false, name "a" false, mark "," false,
        name "b" true, mark ")" false, mark "," false, name "c" true, mark ")" false]),
      (mark "," false, [name "v" true, name "INT" true])]
    closing := mark ")" false
    rest := [name "g" true, mark "(" false, name "x" false, mark "," false, name "y" true, mark ")" false] }
  have formed : creation.WellFormed := ⟨⟨by decide, rfl⟩, fun word found => Option.some.inj found ▸ ⟨by decide, rfl⟩,
    ⟨by decide, rfl⟩, by decide, rfl, rfl, by decide, by decide, rfl⟩
  have read :
      Lexeme.ofText
        (normalize "CREATE TEMPORARY TABLE db.t (id INT(11, 2), CHECK (f(a, b), c), v INT) g(x, y)".toList) =
      .ok creation.lexemes := by decide +kernel
  have succeeds : (annotate {} creation.lexemes).toBool = true := by decide
  cases annotated : annotate {} creation.lexemes with
  | error error => rw [annotated] at succeeds; cases succeeds
  | ok sequence =>
    obtain ⟨kind, scanned⟩ := scan_creation formed annotated
    refine ⟨sequence, tokenize_ok_iff.mpr ⟨creation.lexemes, read, by decide, annotated⟩, kind, ?_⟩
    have columns : creation.items.filterMap declared? = [.column ["id"] "id" none, .column ["v"] "v" none] := by decide
    rw [scanned, columns]

end QueryFacts.Proofs.CreatedColumns

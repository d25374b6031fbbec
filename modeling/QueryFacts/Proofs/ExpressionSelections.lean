import QueryFacts.Proofs.ClauseColumns
import QueryFacts.Proofs.ExpressionSpots

/-! Statements that select expressions from one table and order the result by labels of them: their text, the
lexemes that it is read as, and what the names in them are. -/

namespace QueryFacts
open Text

/-- An expression of a select list, perhaps with a label after AS. -/
structure ExpressionItem where
  expression : Expression
  label : Option String := none

structure ExpressionSelection where
  table : String
  first : ExpressionItem
  more : List ExpressionItem := []
  /-- The labels that the result is ordered by. -/
  order : List String := []

namespace ExpressionSelection

def items (selection : ExpressionSelection) : List ExpressionItem := selection.first :: selection.more

def labels (selection : ExpressionSelection) : List String := selection.items.filterMap (·.label)

/-- What the expressions mention, in order and with repetitions. -/
def mentioned (selection : ExpressionSelection) : List String := selection.items.flatMap (·.expression.columns)

/-- The columns of the statement. A function that is never a column is none without a call, either. -/
def columns (selection : ExpressionSelection) : List String :=
  selection.mentioned.filter fun name => !Keyword.isIgnoredFunction (Keyword.normalForm name)

structure Known (selection : ExpressionSelection) : Prop where
  table : IsUnquoted selection.table
  expressions : ∀ item ∈ selection.items, item.expression.Known
  labels : ∀ label ∈ selection.labels, IsUnquoted label
  once : selection.labels.Nodup
  fresh : ∀ label ∈ selection.labels, ∀ item ∈ selection.items, label ∉ item.expression.words
  order : ∀ label ∈ selection.order, label ∈ selection.labels

end ExpressionSelection

end QueryFacts

namespace QueryFacts.Proofs.ExpressionSelections
open Lexeme ColumnListStatement

def aliasLexemes (label : Option String) : List Lexeme :=
  (label.map fun name => [ofKeyword "AS" true, ofName name true]).getD []

def itemLexemes (item : ExpressionItem) : List Lexeme := item.expression.lexemes true ++ aliasLexemes item.label

def itemsLexemes (first : ExpressionItem) (more : List ExpressionItem) : List Lexeme :=
  itemLexemes first ++ more.flatMap fun item => comma :: itemLexemes item

/-- The order, with these words for its keyword. Without labels it is left out. -/
def orderLexemes (head : List Lexeme) : List String → List Lexeme
  | [] => []
  | first :: more => head ++ (ofName first true :: more.flatMap fun label => [comma, ofName label true])

end QueryFacts.Proofs.ExpressionSelections

namespace QueryFacts.ExpressionSelection
open Proofs.ExpressionSelections Proofs.ClauseQueries Lexeme

/-- The statement up to its order. -/
def front (selection : ExpressionSelection) : List Lexeme :=
  ofKeyword "SELECT" true :: (itemsLexemes selection.first selection.more ++ fromTable selection.table)

def words (selection : ExpressionSelection) : List Lexeme :=
  selection.front ++ orderLexemes (ClauseForm.orderBy.words.map fun word => ofKeyword word true) selection.order

def lexemes (selection : ExpressionSelection) : List Lexeme :=
  selection.front ++ orderLexemes [ClauseForm.orderBy.keyword] selection.order

def text (selection : ExpressionSelection) : String := String.ofList (Lexeme.written selection.words)

end QueryFacts.ExpressionSelection

namespace QueryFacts.Proofs.ExpressionSelections
open Text Lexeme PlainText SelectList ColumnListStatement Selections TextParts JoinKeywords Phrases
open Expressions Clauses Spots ColumnSpots
  MentionSpots ExpressionSpots Unnested BareFacts ClauseQueries ClauseColumns NestingRun

example : ExpressionSelection.text {
    table := "t", first := ⟨.sum (.column "a") (.number "1"), some "x"⟩, more := [⟨.ofAll "count", none⟩],
      order := ["x", "x"] } =
    "SELECT a + 1 AS x, count(*) FROM t ORDER BY x, x" := by decide

section Lexemes

variable {selection : ExpressionSelection} {lexeme : Lexeme}

/-- The select list of a known statement. -/
structure KnownItem (item : ExpressionItem) : Prop where
  expression : item.expression.Known
  label : ∀ label ∈ item.label, IsUnquoted label

theorem knownItem (known : selection.Known) : ∀ item ∈ selection.items, KnownItem item := fun item member =>
  ⟨known.expressions item member, fun label found => known.labels label (List.mem_filterMap.mpr ⟨item, member, found⟩)⟩

theorem mem_itemLexemes {item : ExpressionItem} (known : KnownItem item) (member : lexeme ∈ itemLexemes item) :
    lexeme.Expressive ∨ lexeme = ofKeyword "AS" true := by
  rcases List.mem_append.mp member with expression | label
  · exact .inl (expressive_expression known.expression true lexeme expression)
  · unfold aliasLexemes at label
    cases found : item.label with
    | none => rw [found] at label; cases label
    | some name =>
      rw [found] at label
      rcases List.mem_cons.mp label with rfl | last
      · exact .inr rfl
      · exact .inl (List.mem_singleton.mp last ▸ .name (.inl (known.label name found)) true)

theorem mem_itemsLexemes {first : ExpressionItem} {more : List ExpressionItem}
    (known : ∀ item ∈ first :: more, KnownItem item)
    (member : lexeme ∈ itemsLexemes first more) : lexeme.Expressive ∨ lexeme = ofKeyword "AS" true := by
  rcases List.mem_append.mp member with here | others
  · exact mem_itemLexemes (known first List.mem_cons_self) here
  · obtain ⟨item, among, inside⟩ := List.mem_flatMap.mp others
    rcases List.mem_cons.mp inside with rfl | here
    · exact .inl (.phrasal .comma rfl)
    · exact mem_itemLexemes (known item (List.mem_cons_of_mem _ among)) here

theorem mem_orderLexemes {head : List Lexeme} {order : List String} (known : ∀ label ∈ order, IsUnquoted label)
    (member : lexeme ∈ orderLexemes head order) : lexeme.Expressive ∨ lexeme ∈ head := by
  have name (label : String) (among : label ∈ order) : (ofName label true).Expressive :=
    .name (.inl (known label among)) true
  cases order with
  | nil => cases member
  | cons first more =>
    rcases List.mem_append.mp member with begins | later
    · exact .inr begins
    · rcases List.mem_cons.mp later with rfl | others
      · exact .inl (name first List.mem_cons_self)
      · obtain ⟨label, among, inside⟩ := List.mem_flatMap.mp others
        simp only [List.mem_cons, List.not_mem_nil, or_false] at inside
        rcases inside with rfl | rfl
        · exact .inl (.phrasal .comma rfl)
        · exact .inl (name label (List.mem_cons_of_mem _ among))

variable (known : selection.Known)
include known

theorem mem_front (member : lexeme ∈ selection.front) :
    lexeme.Expressive ∨ ∃ word ∈ ["SELECT", "AS", "FROM"], lexeme = ofKeyword word true := by
  rcases List.mem_cons.mp member with rfl | later
  · exact .inr ⟨"SELECT", by decide, rfl⟩
  · rcases List.mem_append.mp later with list | source
    · exact (mem_itemsLexemes (knownItem known) list).imp_right fun as => ⟨"AS", by decide, as⟩
    · rcases List.mem_cons.mp source with rfl | table
      · exact .inr ⟨"FROM", by decide, rfl⟩
      · exact .inl (List.mem_singleton.mp table ▸ .name (.inl known.table) true)

theorem known_order : ∀ label ∈ selection.order, IsUnquoted label :=
  fun label member => known.labels label (known.order label member)

/-- No keyword of the front is part of another. -/
theorem alone_front : ∀ lexeme ∈ selection.front, Alone lexeme := by
  have keyword : ∀ word ∈ ["SELECT", "AS", "FROM"], Alone (ofKeyword word true) := by
    unfold Alone
    decide
  intro lexeme member
  rcases mem_front known member with expressive | ⟨word, listed, rfl⟩
  · exact alone_of_expressive expressive
  · exact keyword word listed

theorem noWith_selection : ∀ lexeme ∈ selection.lexemes, lexeme.reads "WITH" = false := by
  have keyword : ∀ word ∈ ["SELECT", "AS", "FROM", "ORDER BY"], (ofKeyword word true).reads "WITH" = false := by decide
  have expressive (lexeme : Lexeme) (expressive : lexeme.Expressive) : lexeme.reads "WITH" = false := by
    rw [reads, noKeyword_of_expressive expressive, Bool.false_and]
  intro lexeme member
  rcases List.mem_append.mp member with begins | order
  · rcases mem_front known begins with here | ⟨word, listed, rfl⟩
    · exact expressive lexeme here
    · exact keyword word (List.mem_append_left ["ORDER BY"] listed)
  · rcases mem_orderLexemes (known_order known) order with here | head
    · exact expressive lexeme here
    · exact List.mem_singleton.mp head ▸ keyword "ORDER BY" (by decide)

theorem merge_selection : mergeCompounds selection.words = selection.lexemes := by
  have nothing : mergeCompounds [] = [] := by
    unfold mergeCompounds
    rw [compounds]
    rfl
  have order :
      mergeCompounds (orderLexemes (ClauseForm.orderBy.words.map fun word => ofKeyword word true) selection.order) =
      orderLexemes [ClauseForm.orderBy.keyword] selection.order := by
    have labels := known_order known
    generalize selection.order = order at labels ⊢
    cases order with
    | nil => exact nothing
    | cons first more =>
      let list := ofName first true :: more.flatMap fun label => [comma, ofName label true]
      have alone : ∀ lexeme ∈ list, Alone lexeme := fun lexeme member =>
        (@mem_orderLexemes lexeme [] (first :: more) labels member).elim alone_of_expressive fun none =>
          absurd none List.not_mem_nil
      have merged := mergeCompounds_alone alone []
      rw [nothing, List.append_nil] at merged
      exact (merge_keyword .orderBy list).trans (congrArg (ClauseForm.orderBy.keyword :: ·) merged)
  rw [ExpressionSelection.words, mergeCompounds_alone (alone_front known), order, ExpressionSelection.lexemes]

end Lexemes

section Texts

variable {selection : ExpressionSelection} {after : List Lexeme}

private theorem facts_keyword : ∀ word ∈ ["SELECT", "AS", "FROM", "ORDER", "BY"],
    isIdentifier word.toList = true ∧ Keyword.isReserved (upper word) = true := by decide

theorem follows_item {item : ExpressionItem} (known : KnownItem item) : Follows (itemLexemes item) true := by
  have expression := follows_expression known.expression true
  unfold itemLexemes aliasLexemes
  cases found : item.label with
  | none =>
    rw [Option.map_none, Option.getD_none, List.append_nil]
    exact expression
  | some name =>
    have label := known.label name found
    refine expression.append fun last after noDot noCall opened continues => ?_
    obtain ⟨spelled, reserved⟩ := facts_keyword "AS" (by decide)
    have as : Part false [ofKeyword "AS" true] := part_keyword spelled reserved
    have name : Leads false (ofName name true) := leads_name label.spelled rfl
    exact List.isChain_cons_cons.mpr ⟨near_space_after noDot rfl (as.leads _ rfl),
      List.isChain_cons_cons.mpr ⟨near_of_leads (as.ends _ rfl) name, continues _ ⟨nofun, nofun⟩ rfl⟩⟩

theorem follows_items {first : ExpressionItem} {more : List ExpressionItem}
    (known : ∀ item ∈ first :: more, KnownItem item) :
    Follows (itemsLexemes first more) true := by
  induction more generalizing first with
  | nil =>
    rw [itemsLexemes, List.flatMap_nil, List.append_nil]
    exact follows_item (known first List.mem_cons_self)
  | cons next more ih =>
    intro last after noDot noCall opened continues
    have later := ih fun item member => known item (List.mem_cons_of_mem _ member)
    rw [itemsLexemes, List.flatMap_cons, List.append_assoc]
    refine follows_item (known first List.mem_cons_self) last _ noDot noCall opened fun final ends noCall => ?_
    have comma : Leads false comma := leads_of_phrasal .comma rfl (by decide)
    exact List.isChain_cons_cons.mpr ⟨near_of_leads ends comma, later Lexeme.comma after nofun rfl nofun continues⟩

theorem calls_items {first : ExpressionItem} {more : List ExpressionItem}
    (known : ∀ item ∈ first :: more, KnownItem item) :
    calls (itemsLexemes first more ++ after) = calls after := by
  have uncalled (label : Option String) (unquoted : ∀ name ∈ label, IsUnquoted name) :
      ∀ lexeme ∈ aliasLexemes label, lexeme.isCalled = false := by
    cases label with
    | none => nofun
    | some name =>
      have plain : (ofName name true).Plain := .word (unquoted name rfl).spelled (by simp [(unquoted name rfl).free])
      exact List.forall_mem_cons.mpr ⟨rfl, List.forall_mem_singleton.mpr plain.isCalled⟩
  have item (item : ExpressionItem) (known : KnownItem item) (after : List Lexeme) :
      calls (itemLexemes item ++ after) = calls after := by
    rw [itemLexemes, List.append_assoc, calls_expression known.expression,
      calls_append (uncalled item.label known.label)]
  rw [itemsLexemes, List.append_assoc, item first (known first List.mem_cons_self)]
  replace known (other : ExpressionItem) (member : other ∈ more) := known other (List.mem_cons_of_mem _ member)
  induction more with
  | nil => rfl
  | cons next more ih =>
    have mark : ∀ lexeme ∈ [comma], lexeme.isCalled = false := by decide
    rw [List.flatMap_cons, List.append_assoc]
    refine (@calls_append [comma] mark _).trans ?_
    exact (item next (known next List.mem_cons_self) _).trans (ih fun other member =>
      known other (List.mem_cons_of_mem _ member))

/-- No parentheses stand after the select list. -/
theorem flat_rest (selection : ExpressionSelection) :
    ∀ lexeme ∈ fromTable selection.table ++
        orderLexemes [ClauseForm.orderBy.keyword] selection.order, lexeme.side? = none := by
  intro lexeme member
  rcases List.mem_append.mp member with table | order
  · rcases List.mem_cons.mp table with rfl | last
    · rfl
    · exact List.mem_singleton.mp last ▸ rfl
  · generalize selection.order = labels at order
    cases labels with
    | nil => cases order
    | cons first more =>
      rcases List.mem_cons.mp order with rfl | names
      · rfl
      · rcases List.mem_cons.mp names with rfl | others
        · rfl
        · obtain ⟨label, -, here⟩ := List.mem_flatMap.mp others
          simp only [List.mem_cons, List.not_mem_nil, or_false] at here
          rcases here with rfl | rfl
          · decide
          · rfl

theorem flat_label (label : Option String) : ∀ lexeme ∈ aliasLexemes label, lexeme.side? = none := by
  cases label with
  | none => nofun
  | some name => exact List.forall_mem_cons.mpr ⟨rfl, List.forall_mem_singleton.mpr rfl⟩

variable (known : selection.Known)
include known

/-- The table and the order are words and commas. -/
theorem part_rest : Part false (fromTable selection.table ++
    orderLexemes (ClauseForm.orderBy.words.map fun word => ofKeyword word true) selection.order) := by
  have keyword {word : String} (listed : word ∈ ["SELECT", "AS", "FROM", "ORDER", "BY"]) :
      Part false [ofKeyword word true] :=
    part_keyword (facts_keyword word listed).1 (facts_keyword word listed).2
  have name (name : String) (unquoted : IsUnquoted name) : Part false [ofName name true] :=
    part_name unquoted.spelled unquoted.free rfl
  have table : Part false (fromTable selection.table) := (keyword (by decide)).append (name selection.table known.table)
  refine table.append ?_
  have labels := known_order known
  generalize selection.order = order at labels
  cases order with
  | nil => exact part_nil false
  | cons first more =>
    have head : Part false [ofKeyword "ORDER" true, ofKeyword "BY" true] :=
      (keyword (by decide)).append (keyword (by decide))
    have others : Part false (more.flatMap fun label => [comma, ofName label true]) :=
      part_flatMap fun label member => part_comma.append (name label (labels label (List.mem_cons_of_mem _ member)))
    exact head.append ((name first (labels first List.mem_cons_self)).append others)

theorem readable_selection : Readable selection.words := by
  have items := knownItem known
  have rest := part_rest known
  have select := facts_keyword "SELECT" (by decide)
  have begins : (ofKeyword "SELECT" true).Plain := plain_keyword select.1 select.2 true
  have whole : selection.words =
      ofKeyword "SELECT" true :: (itemsLexemes selection.first selection.more ++ (fromTable selection.table ++
      orderLexemes (ClauseForm.orderBy.words.map fun word => ofKeyword word true) selection.order)) := by
    rw [ExpressionSelection.words, ExpressionSelection.front, List.cons_append, List.append_assoc]
  rw [whole]
  refine ⟨List.forall_mem_cons.mpr ⟨(uncalled_of_plain begins).symm ▸ begins, fun lexeme member => ?_⟩,
    ?_, ?_, fun lexeme found => ?_⟩
  · rcases List.mem_append.mp member with list | later
    · rcases mem_itemsLexemes items list with expressive | rfl
      · exact plain_of_expressive expressive
      · have as : (ofKeyword "AS" true).Plain :=
          plain_keyword (facts_keyword "AS" (by decide)).1 (facts_keyword "AS" (by decide)).2 true
        exact (uncalled_of_plain as).symm ▸ as
    · exact (uncalled_of_plain (rest.plain lexeme later)).symm ▸ rest.plain lexeme later
  · have noCall : (ofKeyword "SELECT" true).isCallable = false := by decide
    refine follows_items items _ _ nofun noCall nofun fun final ends noCall => ?_
    exact List.isChain_cons_cons.mpr ⟨near_of_leads ends (rest.leads _ rfl), rest.near⟩
  · refine (@calls_append [ofKeyword "SELECT" true] (List.forall_mem_singleton.mpr begins.isCalled) _).trans
      ((calls_items items).trans ?_)
    have none := calls_append (fun lexeme member => (rest.plain lexeme member).isCalled) []
    rwa [List.append_nil] at none
  · cases found
    exact ⟨rfl, nofun⟩

/-- As many parentheses are open at one time as in one of the expressions. -/
theorem shallow_selection {bound : Nat} (deep : ∀ item ∈ selection.items, item.expression.depth ≤ bound) :
    Shallow (sides selection.lexemes) bound := by
  have flat {part : List Lexeme} (level : ∀ lexeme ∈ part, lexeme.side? = none) : Shallow (sides part) bound :=
    shallow_level level bound
  have item (item : ExpressionItem) (member : item ∈ selection.items) : Shallow (sides (itemLexemes item)) bound := by
    have expression := nested_mono (nested_expression (known.expressions item member) true) (deep item member)
    rw [itemLexemes, sides_append]
    exact (shallow_nested expression).append (flat (flat_label item.label))
  have others (more : List ExpressionItem) (inside : ∀ other ∈ more, other ∈ selection.items) :
      Shallow (sides (more.flatMap fun item => comma :: itemLexemes item)) bound := by
    induction more with
    | nil => exact @flat [] nofun
    | cons next more ih =>
      obtain ⟨here, later⟩ := List.forall_mem_cons.mp inside
      have mark : Shallow (sides [comma]) bound := flat (by decide)
      rw [List.flatMap_cons, sides_append]
      exact (mark.append (item next here)).append (ih later)
  have whole : selection.lexemes = [ofKeyword "SELECT" true] ++ (itemLexemes selection.first ++
      (selection.more.flatMap (fun item => comma :: itemLexemes item) ++
        (fromTable selection.table ++ orderLexemes [ClauseForm.orderBy.keyword] selection.order))) := by
    simp only [ExpressionSelection.lexemes, ExpressionSelection.front, itemsLexemes, List.cons_append,
      List.nil_append, List.append_assoc]
  have begins : Shallow (sides [ofKeyword "SELECT" true]) bound := flat (List.forall_mem_singleton.mpr rfl)
  rw [whole, sides_append, sides_append, sides_append]
  exact begins.append ((item selection.first List.mem_cons_self).append
    ((others selection.more fun other member => List.mem_cons_of_mem _ member).append (flat (flat_rest selection))))

variable {limits : Limits}

theorem exists_reading_selection (deep : ∀ item ∈ selection.items, item.expression.depth ≤ limits.maxNestingDepth)
    (few : selection.lexemes.length ≤ limits.maxTokens) :
    ∃ sequence, Reading limits selection.text selection.lexemes sequence :=
  exists_reading (readable_selection known) (merge_selection known) (shallow_selection known deep) (Nat.le_refl _) few

end Texts

end QueryFacts.Proofs.ExpressionSelections

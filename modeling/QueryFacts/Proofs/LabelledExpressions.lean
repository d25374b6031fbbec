import QueryFacts.Proofs.AliasSubstitution
import QueryFacts.Proofs.ExpressionSelections
import QueryFacts.Proofs.LabelledItems
import QueryFacts.Proofs.StandaloneBody

/-! Labels of expressions. A label stands for what the expression in front of it mentions, together with each
function in it that is spelled like a column of the statement. A label of nothing is no alias, so that
it is a column where it is used. -/

namespace QueryFacts

/-- What an alias of these columns stands for. One of nothing is none. -/
def AliasTarget.ofColumns? : List String → Option AliasTarget
  | [] => none
  | [single] => some (.column single)
  | several => some (.columns several)

namespace ExpressionSelection
open Proofs.Selections

/-- A label covers the columns of the statement, whatever their names are used for, and the wildcards. -/
def covers (selection : ExpressionSelection) (mark : Mark) : Bool :=
  mark.isWildcard || selection.columns.contains mark.name

/-- What a label after the expression is for. -/
def covered (selection : ExpressionSelection) (expression : Expression) : List String :=
  distinct ((expression.marks.filter selection.covers).map Mark.name)

/-- The labels with what they stand for. -/
def aliases (selection : ExpressionSelection) : NameMap AliasTarget :=
  NameMap.ofFirstPairs
    ((selection.items.filterMap fun item =>
      item.label.map (·, selection.covered item.expression)).filterMap labelTarget?)

/-- The same expressions without labels, in no order. -/
def unlabelled (selection : ExpressionSelection) : ExpressionSelection where
  table := selection.table
  first := ⟨selection.first.expression, none⟩
  more := selection.more.map fun item => ⟨item.expression, none⟩

/-- What labels add to the columns: the wildcard of an expression that has a label, and a label of nothing that
the result is ordered by. -/
inductive Adds (selection : ExpressionSelection) : String → Prop where
  | wildcard {item : ExpressionItem} (member : item ∈ selection.items) (labelled : item.label.isSome = true)
      (allRows : Mark.wildcard ∈ item.expression.marks) : Adds selection "*"
  | label {item : ExpressionItem} {label : String}
    (member : item ∈ selection.items) (labelled : item.label = some label)
      (nothing : selection.covered item.expression = []) (ordered : label ∈ selection.order)
      (column : Keyword.isIgnoredFunction (Keyword.normalForm label) = false) : Adds selection label

end ExpressionSelection

end QueryFacts

namespace QueryFacts.Proofs.LabelledExpressions
open Text Lexeme PlainText SelectList ColumnListStatement Selections Expressions Clauses Spots ColumnSpots LabelSpots
  MentionSpots ExpressionSpots ExpressionSelections LabelledItems Unnested BareFacts NestingRun
open ClauseQueries (fromTable)
open StandaloneBody (isCreateTable_query)
open ClauseColumns (keyword_facts openedBy names_fromTable opened_fromTable)

section Items

variable {scope : AliasDeclaration.Scope} {context : Context} {before after : List Lexeme}
    {last : Lexeme} {item : ExpressionItem}

/-- An item of the select list begins after the lexeme. -/
structure Begins (context : Context) (last : Lexeme) (before : List Lexeme) : Prop where
  projecting : context.Projecting
  opened : context.opened = []
  level : openings (last :: before) = []
  fresh : Fresh last
  noDot : last.isDot = false
  separates : last.separates before = true
  queryless : ∀ lexeme ∈ (last :: before).dropLast, lexeme.reads "SELECT" = false

theorem reads_listed {here : Lexeme} (listed : here.isKeyword = true → here.normalized = "AS") :
    here.reads "SELECT" = false := by
  rw [Lexeme.reads, Bool.and_eq_false_imp]
  intro keyword
  rw [listed keyword]
  rfl

/-- In an item no query begins. -/
theorem Begins.queryless_after (begins : Begins context last before) {part : List Lexeme}
    (listed : ∀ lexeme ∈ part, lexeme.isKeyword = true → lexeme.normalized = "AS") :
    ∀ lexeme ∈ (part.reverse ++ last :: before).dropLast, lexeme.reads "SELECT" = false := by
  rw [List.dropLast_append_of_ne_nil (List.cons_ne_nil _ _)]
  refine List.forall_mem_append.mpr ⟨fun lexeme member => ?_, begins.queryless⟩
  exact reads_listed (listed lexeme (List.mem_reverse.mp member))

/-- In front of a label after AS the item has added what the scope knows of its marks. -/
theorem Begins.itemBefore_label (begins : Begins context last before) {part : List Lexeme}
    {marks : List Mark} {next : Lexeme}
    (offers : Offers scope context (last :: before) part (ofKeyword "AS" true :: next :: after) marks) :
    scope.itemBefore (some next) (ofKeyword "AS" true :: (part.reverse ++ last :: before)) =
        marks.flatMap scope.meant := by
  have joins : (ofKeyword "AS" true).separates (part.reverse ++ last :: before) = false := by
    have noComma : (ofKeyword "AS" true).isPunctuation "," = false := rfl
    have word : (ofKeyword "AS" true).normalized = "AS" := normalForm_as
    have noKeyword : Keyword.precedesColumns "AS" = false := by decide
    rw [Lexeme.separates, noComma, word, noKeyword, Bool.and_false, Bool.or_false, Bool.and_false]
  have starts (next : Option Lexeme) : scope.itemBefore next (last :: before) = [] := if_pos begins.separates
  have covers := offers.covers
  rw [starts, List.nil_append] at covers
  rw [AliasDeclaration.Scope.itemBefore, if_neg (by rw [joins]; exact Bool.false_ne_true),
    columnsAt_other ⟨rfl, rfl⟩, List.append_nil]
  exact covers

/-- The columns of an expression are mentioned, and its label is declared for what the scope knows of it. -/
theorem names_item (known : KnownItem item) (begins : Begins context last before) (halts : Halts after) :
    Names scope context (last :: before) (itemLexemes item) after
      (Column.Mention.ofNames scope.names .select item.expression.columns)
      (item.label.map fun label =>
          ⟨label, some .select, distinct (item.expression.marks.flatMap scope.meant)⟩).toList := by
  let part := item.expression.lexemes true
  have offers {after : List Lexeme} (halts : Halts after) :
      Offers scope context (last :: before) part after item.expression.marks :=
    offers_expression known.expression true begins.projecting begins.fresh begins.noDot halts
  unfold itemLexemes aliasLexemes
  cases item.label with
  | none =>
    rw [Option.map_none, Option.getD_none, List.append_nil]
    exact (offers halts).names
  | some name =>
    let as := ofKeyword "AS" true
    let front := part.reverse ++ last :: before
    have word : as.normalized = "AS" := normalForm_as
    have reads : as.reads "AS" = true := by rw [reads, word]; rfl
    have passed : Offers scope context (last :: before) part (as :: ofName name true :: after) item.expression.marks :=
      offers ⟨rfl, rfl⟩
    have projecting : ((context.after part).step as).Projecting :=
      projecting_step (projecting_expression begins.projecting known.expression true) fun _ => by rw [word]; decide
    have opened : ((context.after part).step as).opened = [] :=
      (opened_step rfl).trans ((opened_nested (nested_expression known.expression true) context).trans begins.opened)
    have level : openings front = [] := (openings_nested (nested_expression known.expression true) _).trans begins.level
    have listed : ∀ lexeme ∈ part ++ [as], lexeme.isKeyword = true → lexeme.normalized = "AS" := by
      refine List.forall_mem_append.mpr ⟨fun lexeme member keyword => ?_, List.forall_mem_singleton.mpr fun _ => word⟩
      cases (noKeyword_of_expressive (expressive_expression known.expression true lexeme member)).symm.trans keyword
    have queryless : ∀ lexeme ∈ (as :: front).dropLast, lexeme.reads "SELECT" = false := by
      have same : (part ++ [as]).reverse ++ last :: before = as :: front := by rw [List.reverse_append]; rfl
      exact same ▸ begins.queryless_after listed
    have select : Section.OpenedBy .select "SELECT" := ⟨by decide, by decide, rfl⟩
    have label :=
      @names_label scope _ front after true name "SELECT" .select select projecting.clause opened level as reads
        (.inr queryless) halts
    have whole := passed.names.append (.skip ⟨rfl, rfl⟩ label)
    rw [begins.itemBefore_label passed, List.append_nil] at whole
    exact whole

theorem listed_item (known : KnownItem item) :
    ∀ lexeme ∈ itemLexemes item, lexeme.isKeyword = true → lexeme.normalized = "AS" := by
  intro lexeme member keyword
  rcases mem_itemLexemes known member with expressive | rfl
  · cases (noKeyword_of_expressive expressive).symm.trans keyword
  · exact normalForm_as

theorem opened_item (known : KnownItem item) (context : Context) :
    (context.after (itemLexemes item)).opened = context.opened := by
  rw [itemLexemes, Context.after_append, opened_after (flat_label item.label)]
  exact opened_nested (nested_expression known.expression true) context

/-- After an item and a comma the next one begins. -/
theorem Begins.next (begins : Begins context last before) (known : KnownItem item) :
    Begins ((context.after (itemLexemes item)).step comma) comma ((itemLexemes item).reverse ++ last :: before) := by
  have opened := (opened_item known context).trans begins.opened
  have level : openings ((itemLexemes item).reverse ++ last :: before) = [] :=
    ColumnSpots.openings_eq_nil begins.opened begins.level opened
  have mark : comma.side? = none := by decide
  have staying (lexeme : Lexeme) (member : lexeme ∈ itemLexemes item) (keyword : lexeme.isKeyword = true) :
      Keyword.isInsignificant lexeme.normalized = true := by
    rw [listed_item known lexeme member keyword]
    decide
  refine ⟨projecting_step (projecting_after begins.projecting staying) nofun, (opened_step mark).trans opened,
    ?_, fresh_comma, rfl, ?_, ?_⟩
  · rw [openings, mark]
    exact level
  · rw [Lexeme.separates, level]
    decide
  · have listed : ∀ lexeme ∈ itemLexemes item ++ [comma], lexeme.isKeyword = true → lexeme.normalized = "AS" :=
      List.forall_mem_append.mpr ⟨listed_item known, List.forall_mem_singleton.mpr nofun⟩
    have same : (itemLexemes item ++ [comma]).reverse ++ last :: before =
        comma :: ((itemLexemes item).reverse ++ last :: before) := by
      rw [List.reverse_append]
      rfl
    exact same ▸ begins.queryless_after listed

/-- The items are read one after the other. -/
theorem names_items {first : ExpressionItem} {more : List ExpressionItem}
    (known : ∀ item ∈ first :: more, KnownItem item)
    (begins : Begins context last before) (halts : Halts after) :
    Names scope context (last :: before) (itemsLexemes first more) after
      (Column.Mention.ofNames scope.names .select ((first :: more).flatMap (·.expression.columns)))
      ((first :: more).filterMap fun item =>
        item.label.map fun label => ⟨label, some .select, distinct (item.expression.marks.flatMap scope.meant)⟩) := by
  have cons (item : ExpressionItem) (rest : List ExpressionItem) :
      (item :: rest).filterMap (fun item => item.label.map fun label =>
      (⟨label, some .select, distinct (item.expression.marks.flatMap scope.meant)⟩ : LabelledItem)) =
        (item.label.map fun label =>
          ⟨label, some .select, distinct (item.expression.marks.flatMap scope.meant)⟩).toList ++
          rest.filterMap fun item => item.label.map fun label =>
              ⟨label, some .select, distinct (item.expression.marks.flatMap scope.meant)⟩ := by
    rw [List.filterMap_cons]
    cases item.label <;> rfl
  induction more generalizing context before last first with
  | nil =>
    have here : Names scope context (last :: before) (itemLexemes first) after _ _ :=
      names_item (known first List.mem_cons_self) begins halts
    rw [itemsLexemes, List.flatMap_nil, List.append_nil, cons, List.filterMap_nil, List.append_nil,
      List.flatMap_cons, List.flatMap_nil, List.append_nil]
    exact here
  | cons next more ih =>
    have between : Halts (comma :: itemsLexemes next more ++ after) :=
      ⟨rfl, show comma.isPunctuation "(" = false by decide⟩
    have here :
        Names scope context (last :: before) (itemLexemes first) (comma :: itemsLexemes next more ++ after) _ _ :=
      names_item (known first List.mem_cons_self) begins between
    have later :=
      ih (fun item member => known item (List.mem_cons_of_mem _ member)) (begins.next (known first List.mem_cons_self))
    rw [cons, List.flatMap_cons, Column.Mention.ofNames_append]
    exact here.append (.skip ⟨rfl, rfl⟩ later)

/-- A label of the order is mentioned, unless it is called like a function that is no column. -/
theorem names_ordered (clause : context.clause = some ClauseForm.orderBy.keyword.normalized)
    (opened : context.opened = [])
    (fresh : Fresh last) (noDot : last.isDot = false) (halts : Halts after) (label : String) :
    Names scope context (last :: before) [ofName label true] after
        (Column.Mention.ofNames scope.names .orderBy [label]) [] := by
  have here :
      Spot.clause ⟨context, last :: before, ofName label true, after⟩ = ClauseForm.orderBy.keyword.normalized := by
    rw [Spot.clause, clause]
    rfl
  have named := @names_single scope context before after last true label fresh halts
    (by rw [opened]; exact fun _ among => absurd among (Option.not_mem_none _))
      .orderBy (section?_of_clause (openedBy .orderBy) here)
  rw [nameBefore_undotted (undotted_cons noDot before)] at named
  rw [Column.Mention.ofNames_cons]
  exact named.append .nil

theorem names_order {first : String} {more : List String}
    (clause : context.clause = some ClauseForm.orderBy.keyword.normalized)
    (opened : context.opened = []) (fresh : Fresh last) (noDot : last.isDot = false) :
    Names scope context (last :: before) (ofName first true :: more.flatMap fun label => [comma, ofName label true]) []
      (Column.Mention.ofNames scope.names .orderBy (first :: more)) [] := by
  induction more generalizing context before last first with
  | nil => exact names_ordered clause opened fresh noDot ⟨rfl, rfl⟩ first
  | cons next more ih =>
    have staying : ∀ lexeme ∈ [ofName first true, comma], lexeme.Staying :=
      List.forall_mem_cons.mpr ⟨⟨rfl, nofun⟩, List.forall_mem_singleton.mpr ⟨by decide, nofun⟩⟩
    have resumes : context.Resumes (context.after [ofName first true, comma]) := resumes_after staying
    have between : Halts (comma :: (ofName next true :: more.flatMap fun label => [comma, ofName label true]) ++ []) :=
      ⟨rfl, show comma.isPunctuation "(" = false by decide⟩
    have here := @names_ordered scope context before _ last clause opened fresh noDot between first
    have later := @ih (context.after [ofName first true, comma]) (ofName first true :: last :: before) comma next
      (resumes.clause.trans clause) (resumes.opened.trans opened) fresh_comma rfl
    have whole := here.append (.skip ⟨rfl, rfl⟩ later)
    rwa [← Column.Mention.ofNames_append] at whole

end Items

section Labels

variable {selection : ExpressionSelection} {item : ExpressionItem} {label : String}

theorem target?_fresh {columns : List String} (fresh : label ∉ columns) :
    AliasDeclaration.target? label columns = AliasTarget.ofColumns? columns := by
  match columns with
  | [] => rfl
  | [single] => exact if_neg fun same => fresh (List.mem_singleton.mpr same.symm)
  | _ :: _ :: _ => rfl

theorem ofColumns?_injective {columns other : List String}
    (same : AliasTarget.ofColumns? columns = AliasTarget.ofColumns? other) :
    columns = other := by
  match columns, other with
  | [], [] => rfl
  | [_], [_] | _ :: _ :: _, _ :: _ :: _ => simpa [AliasTarget.ofColumns?] using same
  | [], [_] | [], _ :: _ :: _ | [_], [] | [_], _ :: _ :: _ | _ :: _ :: _, [] | _ :: _ :: _, [_] => cases same

theorem ofColumns?_isSome {columns : List String} : (AliasTarget.ofColumns? columns).isSome ↔ columns ≠ [] := by
  match columns with
  | [] => simp [AliasTarget.ofColumns?]
  | [_] | _ :: _ :: _ => simp [AliasTarget.ofColumns?]

theorem names_ofColumns? {columns : List String} {target : AliasTarget}
    (told : AliasTarget.ofColumns? columns = some target) :
    target.names = columns := by
  match columns with
  | [] => cases told
  | [_] | _ :: _ :: _ => cases told; rfl

/-- Only a label has a target. -/
private theorem mem_labels_of_target {items : List ExpressionItem} {columns : Expression → List String}
    {pair : String × AliasTarget}
    (targeted :
      pair ∈ (items.filterMap fun item => item.label.map (·, columns item.expression)).filterMap labelTarget?) :
    pair.1 ∈ items.filterMap (·.label) := by
  obtain ⟨declared, inside, told⟩ := List.mem_filterMap.mp targeted
  obtain ⟨item, member, here⟩ := List.mem_filterMap.mp inside
  obtain ⟨name, found, rfl⟩ := Option.map_eq_some_iff.mp here
  obtain ⟨target, -, rfl⟩ := Option.map_eq_some_iff.mp told
  exact List.mem_filterMap.mpr ⟨item, member, found⟩

/-- Of labels that come once, each has the target of its own item. -/
private theorem lookup_targets {items : List ExpressionItem} {columns : Expression → List String}
    (once : (items.filterMap (·.label)).Nodup)
    (fresh : ∀ item ∈ items, ∀ label ∈ item.label, label ∉ columns item.expression)
    (member : item ∈ items) (labelled : item.label = some label) :
    ((items.filterMap fun item => item.label.map (·, columns item.expression)).filterMap labelTarget?).lookup label =
      AliasTarget.ofColumns? (columns item.expression) := by
  have absent (items : List ExpressionItem) (other : label ∉ items.filterMap (·.label)) :
      ((items.filterMap fun item => item.label.map (·, columns item.expression)).filterMap labelTarget?).lookup label =
          none :=
    List.lookup_eq_none_iff.mpr fun _ targeted => bne_iff_ne.mpr fun same =>
      other (same ▸ mem_labels_of_target targeted)
  induction items with
  | nil => cases member
  | cons other rest ih =>
    obtain ⟨freshHere, freshLater⟩ := List.forall_mem_cons.mp fresh
    cases named : other.label with
    | none =>
      rw [List.filterMap_cons_none named] at once
      rw [List.filterMap_cons_none (by rw [named]; rfl)]
      refine ih once freshLater ((List.mem_cons.mp member).resolve_left ?_)
      rintro rfl
      cases named.symm.trans labelled
    | some name =>
      rw [List.filterMap_cons_some named] at once
      obtain ⟨apart, once⟩ := List.nodup_cons.mp once
      have told : labelTarget? (name, columns other.expression) =
          (AliasTarget.ofColumns? (columns other.expression)).map (name, ·) :=
        congrArg (Option.map (name, ·)) (target?_fresh (freshHere name named))
      rw [List.filterMap_cons_some (by rw [named]; rfl)]
      rcases List.mem_cons.mp member with rfl | later
      · obtain rfl := Option.some.inj (named.symm.trans labelled)
        cases target : AliasTarget.ofColumns? (columns item.expression) with
        | none => rw [List.filterMap_cons_none (by rw [told, target]; rfl), absent rest apart]
        | some found => rw [List.filterMap_cons_some (by rw [told, target]; rfl), List.lookup_cons_self]
      · have others := ih once freshLater later
        have differs : (label == name) = false := by
          refine beq_eq_false_iff_ne.mpr ?_
          rintro rfl
          exact apart (List.mem_filterMap.mpr ⟨item, later, labelled⟩)
        cases target : AliasTarget.ofColumns? (columns other.expression) with
        | none => rw [List.filterMap_cons_none (by rw [told, target]; rfl), others]
        | some found => rw [List.filterMap_cons_some (by rw [told, target]; rfl), List.lookup_cons, differs, others]

theorem mem_labels_of_alias {name : String} (target : selection.aliases.contains name) : name ∈ selection.labels := by
  rw [NameMap.contains_iff, ExpressionSelection.aliases, NameMap.keys_ofFirstPairs, mem_distinct] at target
  obtain ⟨pair, targeted, rfl⟩ := List.mem_map.mp target
  exact mem_labels_of_target targeted

theorem mem_covered {name : String} {expression : Expression} :
    name ∈ selection.covered expression ↔ ∃ mark ∈ expression.marks, selection.covers mark = true ∧
        mark.name = name := by
  rw [ExpressionSelection.covered, mem_distinct, List.mem_map]
  simp only [List.mem_filter, and_assoc]

theorem words_of_covered {name : String} {expression : Expression} (member : name ∈ selection.covered expression) :
    name ∈ expression.words := by
  obtain ⟨mark, among, -, rfl⟩ := mem_covered.mp member
  exact List.mem_map_of_mem among

theorem mem_columns {name : String} : name ∈ selection.columns ↔
    (∃ item ∈ selection.items, name ∈ item.expression.columns) ∧
        Keyword.isIgnoredFunction (Keyword.normalForm name) = false := by
  rw [ExpressionSelection.columns, List.mem_filter, ExpressionSelection.mentioned, List.mem_flatMap, Bool.not_eq_true']

theorem words_of_column {name : String} (column : name ∈ selection.columns) :
    ∃ item ∈ selection.items, name ∈ item.expression.words := by
  obtain ⟨⟨item, member, mentioned⟩, -⟩ := mem_columns.mp column
  obtain ⟨mark, among, told⟩ := List.mem_filterMap.mp mentioned
  cases mark with
  | column found => exact ⟨item, member, Option.some.inj told ▸ List.mem_map_of_mem among⟩
  | function | wildcard => cases told

variable (known : selection.Known)
include known

theorem find?_aliases (member : item ∈ selection.items) (labelled : item.label = some label) :
    selection.aliases.find? label = AliasTarget.ofColumns? (selection.covered item.expression) := by
  rw [ExpressionSelection.aliases, NameMap.find?_ofFirstPairs]
  refine lookup_targets known.once (fun other among name found covered => ?_) member labelled
  exact known.fresh name (List.mem_filterMap.mpr ⟨other, among, found⟩) other among (words_of_covered covered)

theorem contains_aliases (member : item ∈ selection.items) (labelled : item.label = some label) :
    selection.aliases.contains label ↔ selection.covered item.expression ≠ [] := by
  rw [NameMap.contains, find?_aliases known member labelled, ofColumns?_isSome]

/-- No word of an expression is an alias. -/
theorem plain_word {name : String} (member : item ∈ selection.items) (word : name ∈ item.expression.words) :
    selection.aliases.find? name = none := by
  cases found : selection.aliases.find? name with
  | none => rfl
  | some target =>
    have stands : selection.aliases.contains name = true := by rw [NameMap.contains, found]; rfl
    exact absurd word (known.fresh name (mem_labels_of_alias stands) item member)

/-- A label stands for what its item covers. -/
theorem mem_resolve_label (member : item ∈ selection.items) (labelled : item.label = some label)
    (stands : selection.aliases.contains label)
    {name : String} : name ∈ Alias.resolve selection.aliases label ↔ name ∈ selection.covered item.expression := by
  obtain ⟨target, found⟩ := Option.isSome_iff_exists.mp stands
  have names : target.names = selection.covered item.expression :=
    names_ofColumns? ((find?_aliases known member labelled).symm.trans found)
  have plain : ∀ other ∈ target.names, selection.aliases.find? other = none := fun other inside =>
    plain_word known member (words_of_covered (names ▸ inside))
  rw [AliasSubstitution.resolve_of_columns found plain, mem_distinct, names]

/-- What a label stands for are columns of the expressions, and the wildcards are added. -/
theorem column_or_adds_of_resolve {name : String} (listed : label ∈ selection.labels)
    (stands : selection.aliases.contains label)
    (covered : name ∈ Alias.resolve selection.aliases label) : name ∈ selection.columns ∨ selection.Adds name := by
  obtain ⟨item, member, labelled⟩ := List.mem_filterMap.mp listed
  obtain ⟨mark, among, covers, rfl⟩ := mem_covered.mp ((mem_resolve_label known member labelled stands).mp covered)
  cases mark with
  | wildcard => exact .inr (.wildcard member (labelled ▸ rfl) among)
  | column spelled | function spelled => exact .inl (List.contains_iff_mem.mp covers)

/-- A label that is no alias is added where the result is ordered by it. -/
theorem adds_of_order (ordered : label ∈ selection.order)
    (counted : Keyword.isIgnoredFunction (Keyword.normalForm label) = false)
    (plain : ¬selection.aliases.contains label) : selection.Adds label := by
  obtain ⟨item, member, labelled⟩ := List.mem_filterMap.mp (known.order label ordered)
  have nothing := mt (contains_aliases known member labelled).mpr plain
  exact .label member labelled (not_not.mp nothing) ordered counted

/-- What labels add is a label that is no alias, or one stands for it. -/
theorem use_of_adds {name : String} (adds : selection.Adds name) :
    (name ∈ selection.order ∧ Keyword.isIgnoredFunction (Keyword.normalForm name) = false ∧
      ¬selection.aliases.contains name) ∨
      ∃ label ∈ selection.labels, selection.aliases.contains label ∧ name ∈ Alias.resolve selection.aliases label := by
  cases adds with
  | @wildcard item member named allRows =>
    obtain ⟨label, labelled⟩ := Option.isSome_iff_exists.mp named
    have covered : "*" ∈ selection.covered item.expression := mem_covered.mpr ⟨.wildcard, allRows, rfl, rfl⟩
    have stands := (contains_aliases known member labelled).mpr (List.ne_nil_of_mem covered)
    exact .inr ⟨label, List.mem_filterMap.mpr ⟨item, member, labelled⟩, stands,
      (mem_resolve_label known member labelled stands).mpr covered⟩
  | label member labelled nothing ordered counted =>
    exact .inl ⟨ordered, counted, fun stands => (contains_aliases known member labelled).mp stands nothing⟩

/-- The scan knows the columns of the statement, so that a mark is known if the label covers it. -/
theorem covered_eq {scope : AliasDeclaration.Scope} (names : scope.names = distinct selection.labels)
    (knows : Knows scope.known selection.columns)
    (member : item ∈ selection.items) :
    distinct (item.expression.marks.flatMap scope.meant) = selection.covered item.expression := by
  have each : ∀ mark ∈ item.expression.marks, scope.meant mark = if selection.covers mark then [mark.name] else [] := by
    intro mark among
    have unlabelled : scope.names.contains mark.name = false := by
      rw [names, Bool.eq_false_iff]
      intro label
      have listed := mem_distinct.mp (List.contains_iff_mem.mp label)
      exact known.fresh mark.name listed item member (List.mem_map_of_mem among)
    have found := knows mark.name
    have contains : scope.known.contains mark.name = selection.columns.contains mark.name := by
      rw [NameMap.contains, found, Bool.eq_iff_iff, List.contains_iff_mem]
      split <;> simp [*]
    have itself : (scope.known.find? mark.name).getD [mark.name] = [mark.name] := by
      rw [found]
      split <;> rfl
    rw [AliasDeclaration.Scope.meant, contains, unlabelled, itself, Bool.or_false]
    rfl
  have whole (marks : List Mark) : marks.flatMap (fun mark => if selection.covers mark then [mark.name] else []) =
      (marks.filter selection.covers).map Mark.name := by
    induction marks with
    | nil => rfl
    | cons mark marks ih =>
      rw [List.flatMap_cons, ih, List.filter_cons]
      split <;> rfl
  rw [List.flatMap_congr each, whole, ExpressionSelection.covered]

end Labels

section Statement

variable {selection : ExpressionSelection}

def mentions (selection : ExpressionSelection) : List Column.Mention :=
  Column.Mention.ofNames (distinct selection.labels) .select selection.mentioned ++
    Column.Mention.ofNames (distinct selection.labels) .orderBy selection.order

/-- The labels with what they are declared for. -/
def labelled (selection : ExpressionSelection) : List LabelledItem :=
  selection.items.filterMap fun item => item.label.map fun label =>
    ⟨label, some .select, selection.covered item.expression⟩

theorem step_select : Context.step {} (ofKeyword "SELECT" true) =
    { last := some (ofKeyword "SELECT" true), clause := some "SELECT" } := by
  rw [step_keyword normalForm_select (by decide)]
  rfl

theorem projecting_select : (Context.step {} (ofKeyword "SELECT" true)).Projecting := by
  rw [step_select]
  refine ⟨rfl, List.forall_mem_nil _, rfl, rfl, fun last found => ?_⟩
  obtain rfl := Option.some.inj found
  decide

theorem begins_select : Begins (Context.step {} (ofKeyword "SELECT" true)) (ofKeyword "SELECT" true) [] := by
  have fresh : Fresh (ofKeyword "SELECT" true) := fresh_keyword (by decide)
  have separates : (ofKeyword "SELECT" true).separates [] = true := by decide
  exact ⟨projecting_select, by rw [step_select], rfl, fresh, rfl, separates, List.forall_mem_nil _⟩

theorem start_selection (selection : ExpressionSelection) : Context.start selection.lexemes = {} := by
  have noTable : isCreateTable selection.lexemes = false := by
    rw [ExpressionSelection.lexemes, ExpressionSelection.front, List.cons_append]
    exact isCreateTable_query rfl rfl (.inl normalForm_select)
  rw [Context.start, noTable]

variable (known : selection.Known)
include known

theorem opened_items (context : Context) :
    (context.after (itemsLexemes selection.first selection.more)).opened = context.opened := by
  have items := knownItem known
  have others (more : List ExpressionItem) (among : ∀ item ∈ more, KnownItem item) (context : Context) :
      (context.after (more.flatMap fun item => comma :: itemLexemes item)).opened = context.opened := by
    induction more generalizing context with
    | nil => rfl
    | cons next more ih =>
      obtain ⟨here, later⟩ := List.forall_mem_cons.mp among
      rw [List.flatMap_cons, Context.after_append, ih later]
      exact (opened_item here (context.step comma)).trans (opened_step (by decide))
  rw [itemsLexemes, Context.after_append, others _ fun item member => items item (List.mem_cons_of_mem _ member)]
  exact opened_item (items _ List.mem_cons_self) context

theorem names_selection (scope : AliasDeclaration.Scope) :
    Names scope (Context.start selection.lexemes) [] selection.lexemes []
    (Column.Mention.ofNames scope.names .select selection.mentioned ++
      Column.Mention.ofNames scope.names .orderBy selection.order)
    (selection.items.filterMap fun item =>
      item.label.map fun label => ⟨label, some .select, distinct (item.expression.marks.flatMap scope.meant)⟩) := by
  let head := ClauseForm.orderBy.keyword
  let order := orderLexemes [head] selection.order
  let list := itemsLexemes selection.first selection.more
  have select : Names scope _ [ofKeyword "SELECT" true] list (fromTable selection.table ++ order ++ []) _ _ :=
    names_items (knownItem known) begins_select ⟨rfl, rfl⟩
  have opened : ((Context.step {} (ofKeyword "SELECT" true)).after list).opened = [] :=
    (opened_items known _).trans begins_select.opened
  have rest {context : Context} {before : List Lexeme} (level : context.opened = []) :
      Names scope context before order [] (Column.Mention.ofNames scope.names .orderBy selection.order) [] := by
    simp only [order]
    cases selection.order with
    | nil => exact .nil
    | cons first more =>
      obtain ⟨significant, -, fresh⟩ := keyword_facts .orderBy
      obtain ⟨clause, -, same⟩ := step_significant context head rfl significant
      exact .skip ⟨rfl, rfl⟩ (names_order clause (same.trans level) fresh rfl)
  have table : Names scope _ (list.reverse ++ [ofKeyword "SELECT" true]) (fromTable selection.table ++ order) [] _ [] :=
    (names_fromTable opened selection.table).append (rest (opened_fromTable selection.table opened))
  have whole := select.append table
  rw [List.nil_append, List.append_nil] at whole
  have split : selection.lexemes = ofKeyword "SELECT" true :: (list ++ (fromTable selection.table ++ order)) := by
    rw [ExpressionSelection.lexemes, ExpressionSelection.front, List.cons_append, List.append_assoc]
  rw [start_selection, split]
  exact .skip ⟨rfl, rfl⟩ whole

variable {limits : Limits} {sequence : TokenSequence}
    (reading : Reading limits selection.text selection.lexemes sequence)
include reading

omit known in
theorem kind_selection : StatementKind.ofTokens sequence = .ok .select := by
  let rest := itemsLexemes selection.first selection.more ++ fromTable selection.table ++
    orderLexemes [ClauseForm.orderBy.keyword] selection.order
  have split : selection.lexemes = ofKeyword "SELECT" true :: rest := by
    rw [ExpressionSelection.lexemes, ExpressionSelection.front, List.cons_append]
  obtain ⟨second, more, begins⟩ : ∃ second more, rest = second :: more :=
    List.exists_cons_of_ne_nil (by simp [rest, fromTable])
  refine reading.kind (split.trans (congrArg (ofKeyword "SELECT" true :: ·) begins)) (show "SELECT" ≠ "(" by decide) ?_
  rw [show (ofKeyword "SELECT" true).normalized = "SELECT" from normalForm_select]
  rfl

/-- No parenthesis holds a query. -/
theorem bodiless_selection : Subquery.bodies sequence = {} := by
  let select := ofKeyword "SELECT" true
  let list := itemsLexemes selection.first selection.more
  let rest := fromTable selection.table ++ orderLexemes [ClauseForm.orderBy.keyword] selection.order
  have split : selection.lexemes = select :: (list ++ rest) := by
    rw [ExpressionSelection.lexemes, ExpressionSelection.front, List.cons_append, List.append_assoc]
  have staying : ∀ lexeme ∈ list, lexeme.isKeyword = true → Keyword.isInsignificant lexeme.normalized = true := by
    intro lexeme member keyword
    rcases mem_itemsLexemes (knownItem known) member with expressive | rfl
    · cases (noKeyword_of_expressive expressive).symm.trans keyword
    · rw [show (ofKeyword "AS" true).normalized = "AS" from normalForm_as]
      decide
  refine bodies_unqueried reading fun spot within closes => ?_
  have member := within.mem
  rw [start_selection, split, spots, spots_append] at member
  rcases List.mem_cons.mp member with rfl | later
  · cases closes
  · rcases List.mem_append.mp later with inside | late
    · exact unqueried_of_projecting (projecting_spots projecting_select staying spot inside)
    · cases (side?_eq_closing.mpr closes).symm.trans (flat_rest selection spot.here (here_mem late))

omit reading in
/-- With a scope that knows the columns each label is for what it covers. -/
theorem names_labelled {met : NameMap (List String)} (knows : Knows met selection.columns) :
    Names ⟨met, distinct ((labelled selection).map (·.name))⟩ (Context.start selection.lexemes) [] selection.lexemes []
      (mentions selection) (labelled selection) := by
  have named : (labelled selection).map (·.name) = selection.labels := names_selected _ _ _
  have same : (selection.items.filterMap fun item => item.label.map fun label => (⟨label, some .select,
      distinct (item.expression.marks.flatMap (AliasDeclaration.Scope.meant ⟨met, distinct selection.labels⟩))⟩ :
        LabelledItem)) =
        labelled selection := by
    refine List.filterMap_congr fun item member => ?_
    rw [@covered_eq selection item known ⟨met, distinct selection.labels⟩ rfl knows member]
  have names := names_selection known ⟨met, distinct selection.labels⟩
  rw [same] at names
  rw [named]
  exact names

omit reading in
/-- The columns that the scan meets. A label of the order is none. -/
theorem columns_mentions : (mentions selection).filterMap Column.Mention.column? = selection.columns := by
  have plain {names : List String} (free : ∀ name ∈ names, name ∉ selection.labels) (sec : Section) :
      (Column.Mention.ofNames (distinct selection.labels) sec names).filterMap Column.Mention.column? =
        names.filter fun name => !Keyword.isIgnoredFunction (Keyword.normalForm name) := by
    rw [Column.Mention.ofNames, List.filterMap_map]
    refine (List.filterMap_congr fun name member => ?_).trans List.filterMap_some
    have unlabelled := free name (List.mem_filter.mp member).1
    have column : Column.Mention.ofName (distinct selection.labels) name sec = .column name sec :=
      if_neg (by simp [mem_distinct, unlabelled])
    rw [Function.comp_apply, column]
    rfl
  have order :
      (Column.Mention.ofNames (distinct selection.labels) .orderBy selection.order).filterMap Column.Mention.column? =
          [] := by
    refine List.filterMap_eq_nil_iff.mpr fun mention member => ?_
    obtain ⟨name, kept, rfl⟩ := List.mem_map.mp member
    have label := known.order name (List.mem_filter.mp kept).1
    have bare := bare_of_unquoted (known.labels name label)
    have stands : Column.Mention.ofName (distinct selection.labels) name .orderBy = .aliasName name .orderBy :=
      if_pos (by simp [mem_distinct, label, bare])
    rw [stands]
    rfl
  rw [mentions, List.filterMap_append, order, List.append_nil]
  refine plain (fun name mentioned label => ?_) .select
  obtain ⟨item, member, column⟩ := List.mem_flatMap.mp mentioned
  obtain ⟨mark, among, told⟩ := List.mem_filterMap.mp column
  cases mark with
  | column found => exact known.fresh name label item member (Option.some.inj told ▸ List.mem_map_of_mem among)
  | function | wildcard => cases told

omit reading in
theorem undotted_column {name : String} (column : name ∈ selection.columns) : '.' ∉ name.toList := by
  obtain ⟨⟨item, member, mentioned⟩, -⟩ := mem_columns.mp column
  exact bare_of_unquoted (unquoted_of_column (known.expressions item member) mentioned)

omit reading in
/-- The uses of columns and of labels in the statement. -/
theorem uses_selection :
    (mentions selection).filterMap (Column.Mention.columnUse? selection.aliases) = selection.columns.map (·, .select) ++
        ((selection.order.filter fun name => !Keyword.isIgnoredFunction (Keyword.normalForm name)).filter
          (!selection.aliases.contains ·)).map (·, .orderBy) ∧
      (mentions selection).filterMap (Column.Mention.aliasUse? selection.aliases) =
        ((selection.order.filter fun name => !Keyword.isIgnoredFunction (Keyword.normalForm name)).filter
          selection.aliases.contains).map (·, .orderBy) := by
  have labels (name : String) (stands : selection.aliases.contains name) :
      (distinct selection.labels).contains name = true ∧ '.' ∉ name.toList :=
    ⟨List.contains_iff_mem.mpr (mem_distinct.mpr (mem_labels_of_alias stands)),
      bare_of_unquoted (known.labels name (mem_labels_of_alias stands))⟩
  have plain : ∀ name ∈ selection.columns, selection.aliases.contains name = false := by
    intro name column
    obtain ⟨item, member, word⟩ := words_of_column column
    rw [NameMap.contains, plain_word known member word]
    rfl
  have kept : selection.columns.filter (!selection.aliases.contains ·) = selection.columns :=
    List.filter_eq_self.mpr fun name column => by rw [plain name column]; rfl
  have none : selection.columns.filter selection.aliases.contains = [] :=
    List.filter_eq_nil_iff.mpr fun name column => by rw [plain name column]; exact Bool.false_ne_true
  obtain ⟨selected, renamed⟩ :=
    @Column.Mention.uses_ofNames selection.aliases (distinct selection.labels) selection.mentioned
    (fun name _ => labels name) .select
  obtain ⟨ordered, replaced⟩ :=
    @Column.Mention.uses_ofNames selection.aliases (distinct selection.labels) selection.order
    (fun name _ => labels name) .orderBy
  rw [← ExpressionSelection.columns] at selected renamed
  rw [mentions, List.filterMap_append, List.filterMap_append, selected, renamed, ordered, replaced, kept, none]
  exact ⟨rfl, rfl⟩

/-- What labels add is a column, and apart from that the columns are those that the expressions mention. -/
theorem exists_facts_selection : ∃ facts, (Query.ofText selection.text limits).facts = .ok facts ∧
    facts.aliases = selection.aliases ∧
    ∀ name, name ∈ facts.columns ↔ name ∈ selection.columns ∨ selection.Adds name := by
  have bodiless := bodiless_selection known reading
  have columns := columns_mentions known
  have names (met : NameMap (List String))
      (knows : Knows met ((mentions selection).filterMap Column.Mention.column?)) :=
    names_labelled known (columns ▸ knows)
  have declared := (sections_labelled reading bodiless names).trans
    (sections_selected selection.items (·.label) (selection.covered ·.expression))
  have read :=
    facts_labelled reading bodiless names (kind_selection reading) (show StatementKind.select ≠ .create by decide)
    (withClause_bare reading.annotated (noWith_selection known))
    fun name member => MeantColumns.meaning_bare (undotted_column known (columns ▸ member))
  have pairs : (labelled selection).map (fun item => (item.name, item.columns)) = _ := pairs_selected _ _ _
  rw [pairs] at read
  change _ = Except.ok (Facts.completed (Facts.read sequence {} selection.aliases _)) at read
  refine ⟨_, read,
    (MeantColumns.keeps_completed sequence {} selection.aliases ((mentions selection).map Column.Mention.bare)).aliases,
    fun name => ?_⟩
  obtain ⟨uses, replaced⟩ := uses_selection known
  rw [mem_columns_bare sequence selection.aliases (mentions selection) declared, uses, replaced]
  simp only [List.map_append, List.map_map, Function.comp_def, List.map_id', List.mem_append, List.mem_filter]
  constructor
  · rintro ((column | ⟨⟨ordered, counted⟩, plain⟩) | ⟨label, used, stands, covered⟩)
    · exact .inl column
    · exact .inr (adds_of_order known ordered (by simpa using counted) (by simpa using plain))
    · have listed : label ∈ selection.labels := used.elim id fun ordered => known.order label ordered.1.1
      exact column_or_adds_of_resolve known listed stands covered
  · rintro (column | adds)
    · exact .inl (.inl column)
    · obtain ⟨ordered, counted, plain⟩ | ⟨label, listed, resolved⟩ := use_of_adds known adds
      · exact .inl (.inr ⟨⟨ordered, by simpa using counted⟩, by simpa using plain⟩)
      · exact .inr ⟨label, .inl listed, resolved⟩

end Statement

section Columns

variable {selection : ExpressionSelection} {limits : Limits}

theorem items_unlabelled (selection : ExpressionSelection) :
    selection.unlabelled.items = selection.items.map fun item => ⟨item.expression, none⟩ := rfl

theorem columns_unlabelled (selection : ExpressionSelection) : selection.unlabelled.columns = selection.columns := by
  rw [ExpressionSelection.columns, ExpressionSelection.columns, ExpressionSelection.mentioned,
    ExpressionSelection.mentioned, items_unlabelled, List.flatMap_map]

theorem labels_unlabelled (selection : ExpressionSelection) : selection.unlabelled.labels = [] := by
  rw [ExpressionSelection.labels, items_unlabelled, List.filterMap_map]
  exact List.filterMap_eq_nil_iff.mpr fun _ _ => rfl

theorem length_unlabelled (selection : ExpressionSelection) :
    selection.unlabelled.lexemes.length ≤ selection.lexemes.length := by
  have item (item : ExpressionItem) : (itemLexemes ⟨item.expression, none⟩).length ≤ (itemLexemes item).length := by
    rw [itemLexemes, itemLexemes, List.length_append, List.length_append]
    exact Nat.add_le_add_left (Nat.zero_le _) _
  have others (more : List ExpressionItem) :
      ((more.map fun item => (⟨item.expression, none⟩ : ExpressionItem)).flatMap fun item =>
        comma :: itemLexemes item).length ≤
        (more.flatMap fun item => comma :: itemLexemes item).length := by
    induction more with
    | nil => exact Nat.le_refl _
    | cons next more ih =>
      rw [List.map_cons, List.flatMap_cons, List.flatMap_cons, List.length_append, List.length_append]
      exact Nat.add_le_add (Nat.succ_le_succ (item next)) ih
  have list : (itemsLexemes selection.unlabelled.first selection.unlabelled.more).length ≤
      (itemsLexemes selection.first selection.more).length := by
    rw [itemsLexemes, itemsLexemes, List.length_append, List.length_append]
    exact Nat.add_le_add (item selection.first) (others selection.more)
  have front : selection.unlabelled.front.length ≤ selection.front.length := by
    rw [ExpressionSelection.front, ExpressionSelection.front, List.length_cons, List.length_cons,
      List.length_append, List.length_append]
    exact Nat.succ_le_succ (Nat.add_le_add_right list _)
  rw [ExpressionSelection.lexemes, ExpressionSelection.lexemes, List.length_append, List.length_append]
  exact Nat.add_le_add front (Nat.zero_le _)

/-- Without labels nothing is added. -/
theorem not_adds_unlabelled (selection : ExpressionSelection) (name : String) : ¬selection.unlabelled.Adds name := by
  have none : ∀ item ∈ selection.unlabelled.items, item.label = none := by
    rw [items_unlabelled]
    exact List.forall_mem_map.mpr fun _ _ => rfl
  intro adds
  cases adds with
  | wildcard member labelled => rw [none _ member] at labelled; cases labelled
  | label member labelled => cases (none _ member).symm.trans labelled

/-- A label covers the columns of its expression if nothing else in it is spelled like a column of the statement, no
wildcard stands in it, and each of its columns is one of the statement. -/
theorem covered_of_covers {expression : Expression}
    (apart : ∀ mark ∈ expression.marks, selection.covers mark = mark.column?.isSome) :
    selection.covered expression = distinct expression.columns := by
  rw [ExpressionSelection.covered, Expression.columns]
  generalize expression.marks = marks at apart
  refine congrArg distinct ?_
  induction marks with
  | nil => rfl
  | cons mark marks ih =>
    obtain ⟨here, later⟩ := List.forall_mem_cons.mp apart
    rw [List.filter_cons, here, List.filterMap_cons]
    cases mark with
    | column name => exact congrArg (name :: ·) (ih later)
    | function | wildcard => exact ih later

variable (known : selection.Known)
include known

theorem known_unlabelled : selection.unlabelled.Known where
  table := known.table
  expressions := by
    rw [items_unlabelled]
    exact List.forall_mem_map.mpr known.expressions
  labels := by rw [labels_unlabelled]; exact List.forall_mem_nil _
  once := by rw [labels_unlabelled]; exact List.nodup_nil
  fresh := by rw [labels_unlabelled]; exact List.forall_mem_nil _
  order := List.forall_mem_nil _

/-- What labels add is no column of an expression. -/
theorem not_column_of_adds {name : String} (adds : selection.Adds name) : name ∉ selection.columns := by
  intro column
  cases adds with
  | wildcard =>
    obtain ⟨⟨item, member, mentioned⟩, -⟩ := mem_columns.mp column
    have spelled := (unquoted_of_column (known.expressions item member) mentioned).spelled
    exact absurd spelled (by decide)
  | label among labelled =>
    obtain ⟨item, member, word⟩ := words_of_column column
    exact known.fresh name (List.mem_filterMap.mpr ⟨_, among, labelled⟩) item member word

variable (deep : ∀ item ∈ selection.items, item.expression.depth ≤ limits.maxNestingDepth)
    (few : selection.lexemes.length ≤ limits.maxTokens)
include deep few

/-- A label stands for what the marks of its expression cover, in order and without repetitions. These are the
columns of the expression if no function in it is spelled like a column of the statement. -/
theorem label_covers_iff : ∃ facts, (Query.ofText selection.text limits).facts = .ok facts ∧
    ∀ item ∈ selection.items, ∀ label, item.label = some label →
      facts.aliases.find? label = AliasTarget.ofColumns? (selection.covered item.expression) ∧
      (facts.aliases.find? label = AliasTarget.ofColumns? (distinct item.expression.columns) ↔
        selection.covered item.expression = distinct item.expression.columns) ∧
      ((∀ mark ∈ item.expression.marks, selection.covers mark = mark.column?.isSome) →
        facts.aliases.find? label = AliasTarget.ofColumns? (distinct item.expression.columns)) := by
  obtain ⟨sequence, reading⟩ := exists_reading_selection known deep few
  obtain ⟨facts, read, aliases, -⟩ := exists_facts_selection known reading
  refine ⟨facts, read, fun item member label labelled => ?_⟩
  have found : facts.aliases.find? label = AliasTarget.ofColumns? (selection.covered item.expression) := by
    rw [aliases, find?_aliases known member labelled]
  refine ⟨found, ?_, fun apart => ?_⟩
  · rw [found]
    exact ⟨ofColumns?_injective, congrArg AliasTarget.ofColumns?⟩
  · rw [found, covered_of_covers apart]

/-- With labels a statement has the columns that it has without them, and what the labels add. -/
theorem labelled_columns_iff : ∃ plain facts, (Query.ofText selection.unlabelled.text limits).facts = .ok plain ∧
    (Query.ofText selection.text limits).facts = .ok facts ∧ (∀ name, name ∈ plain.columns ↔ name ∈ selection.columns) ∧
    (∀ name, name ∈ facts.columns ↔ name ∈ selection.columns ∨ selection.Adds name) ∧
    ((∀ name, name ∈ facts.columns ↔ name ∈ plain.columns) ↔ ∀ name, ¬selection.Adds name) := by
  obtain ⟨sequence, reading⟩ := exists_reading_selection known deep few
  obtain ⟨facts, read, -, columns⟩ := exists_facts_selection known reading
  have fewer := Nat.le_trans (length_unlabelled selection) few
  have shallow : ∀ item ∈ selection.unlabelled.items, item.expression.depth ≤ limits.maxNestingDepth := by
    rw [items_unlabelled]
    exact List.forall_mem_map.mpr deep
  obtain ⟨sequence', reading'⟩ := exists_reading_selection (known_unlabelled known) shallow fewer
  obtain ⟨plain, readPlain, -, plainColumns⟩ := exists_facts_selection (known_unlabelled known) reading'
  have bare (name : String) : name ∈ plain.columns ↔ name ∈ selection.columns := by
    rw [plainColumns, columns_unlabelled]
    exact or_iff_left (not_adds_unlabelled selection name)
  refine ⟨plain, facts, readPlain, read, bare, columns, fun same name adds => ?_, fun nothing name => ?_⟩
  · exact not_column_of_adds known adds ((bare name).mp ((same name).mp ((columns name).mpr (.inr adds))))
  · rw [columns, bare]
    exact or_iff_left (nothing name)

end Columns

/-- The function is spelled like a column of the other item, and the label is for it as well. -/
theorem label_covers_function : ∃ facts, (Query.ofText "SELECT f(a) AS x, f AS y FROM t" {}).facts = .ok facts ∧
    facts.aliases.find? "x" = some (.columns ["f", "a"]) ∧ facts.aliases.find? "y" = some (.column "f") := by
  let selection : ExpressionSelection :=
    { table := "t", first := ⟨.call "f" [.column "a"], some "x"⟩, more := [⟨.column "f", some "y"⟩] }
  have text : selection.text = "SELECT f(a) AS x, f AS y FROM t" := by decide
  have known : selection.Known := {
    table := by decide
    expressions :=
  List.forall_mem_cons.mpr ⟨.call (.inl (by decide)) (List.forall_mem_singleton.mpr (.column (by decide))),
      List.forall_mem_singleton.mpr (.column (by decide))⟩
    labels := by decide
    once := by decide
    fresh := by decide
    order := by decide }
  obtain ⟨facts, read, covers⟩ := @label_covers_iff selection {} known (by decide) (by decide)
  rw [text] at read
  have first := (covers selection.first List.mem_cons_self "x" rfl).1
  have second := (covers ⟨.column "f", some "y"⟩ (List.mem_cons_of_mem _ List.mem_cons_self) "y" rfl).1
  exact ⟨facts, read, first.trans (by decide), second.trans (by decide)⟩

/-- The label of a number is a column where the result is ordered by it. -/
theorem labelled_columns_of_number : ∃ plain facts, (Query.ofText "SELECT 1 FROM t" {}).facts = .ok plain ∧
    (Query.ofText "SELECT 1 AS x FROM t ORDER BY x" {}).facts = .ok facts ∧ "x" ∉ plain.columns ∧
        "x" ∈ facts.columns := by
  let selection : ExpressionSelection := { table := "t", first := ⟨.number "1", some "x"⟩, order := ["x"] }
  have texts :
      selection.text = "SELECT 1 AS x FROM t ORDER BY x" ∧ selection.unlabelled.text = "SELECT 1 FROM t" := by decide
  have known : selection.Known := {
    table := by decide
    expressions := List.forall_mem_singleton.mpr (.number (by decide))
    labels := by decide
    once := by decide
    fresh := by decide
    order := by decide }
  obtain ⟨plain, facts, readPlain, read, bare, columns, -⟩ :=
    @labelled_columns_iff selection {} known (by decide) (by decide)
  rw [texts.1] at read
  rw [texts.2] at readPlain
  have none : selection.columns = [] := rfl
  have adds : selection.Adds "x" := .label List.mem_cons_self rfl rfl List.mem_cons_self (by decide)
  refine ⟨plain, facts, readPlain, read, ?_, (columns "x").mpr (.inr adds)⟩
  rw [bare, none]
  exact List.not_mem_nil

end QueryFacts.Proofs.LabelledExpressions

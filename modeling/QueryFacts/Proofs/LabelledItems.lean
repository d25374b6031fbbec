import QueryFacts.Proofs.MentionSpots
import QueryFacts.Proofs.Selections.LabelColumns

/-! The facts of a statement in which it is known what every name is, and in which columns mean themselves. Its
labels are its declarations, in their order, and each becomes an alias of the columns of its item. -/

namespace QueryFacts.Proofs.LabelledItems
open Lexeme Selections Spots MentionSpots BareFacts Unnested NestingRun

section Items

variable {ι : Type} (items : List ι) (label : ι → Option String) (columns : ι → List String)

/-- The items with labels, where an item is for these columns. -/
def selected : List LabelledItem :=
  items.filterMap fun item => (label item).map fun name => ⟨name, some .select, columns item⟩

theorem names_selected : (selected items label columns).map (·.name) = items.filterMap label := by
  rw [selected, List.map_filterMap]
  refine List.filterMap_congr fun item _ => ?_
  cases label item <;> rfl

theorem sections_selected : (selected items label columns).filterMap (fun item => item.sec.map (item.name, ·)) =
    (items.filterMap label).map (·, .select) := by
  rw [selected, List.filterMap_filterMap, List.map_filterMap]
  refine List.filterMap_congr fun item _ => ?_
  cases label item <;> rfl

theorem pairs_selected : (selected items label columns).map (fun item => (item.name, item.columns)) =
    items.filterMap fun item => (label item).map (·, columns item) := by
  rw [selected, List.map_filterMap]
  refine List.filterMap_congr fun item _ => ?_
  cases label item <;> rfl

end Items

section Statement

variable {limits : Limits} {text : String} {lexemes : List Lexeme} {sequence : TokenSequence}
    {mentions : List Column.Mention}
  {items : List LabelledItem} (reading : Reading limits text lexemes sequence)
  (bodiless : Subquery.bodies sequence = {})
  (names : ∀ known, Knows known (mentions.filterMap Column.Mention.column?) →
    Names ⟨known, distinct (items.map (·.name))⟩ (Context.start lexemes) [] lexemes [] mentions items)
include reading bodiless names

/-- What the statement declares, for each scope that knows its columns and labels. -/
theorem declarations_labelled {known : NameMap (List String)}
    (knows : Knows known (mentions.filterMap Column.Mention.column?)) {α : Type}
    (view : LabelledItem → α) :
    (Facts.declarations sequence {}).map (fun declaration => view ⟨declaration.name, declaration.sec,
      AliasDeclaration.Scope.expressionColumns ⟨known, distinct (items.map (·.name))⟩
        (sequence.cursor declaration.position)⟩) =
        items.map view := by
  have same := congrArg (List.map view) (labels_eq reading.annotated bodiless (names known knows))
  rwa [List.map_map] at same

omit reading bodiless names in
/-- A scan of the mentions ends with a scope that knows their columns. -/
theorem exists_knows (mentions : List Column.Mention) :
    ∃ known, Knows known (mentions.filterMap Column.Mention.column?) := by
  obtain ⟨known, -, knows⟩ := @scan_bare {} {} mentions (fun name _ => meaning_bare name) {} [] fun _ => rfl
  exact ⟨known, knows⟩

theorem declaredNames_labelled : Facts.declaredNames sequence {} = distinct (items.map (·.name)) := by
  obtain ⟨known, knows⟩ := exists_knows mentions
  exact congrArg distinct (declarations_labelled reading bodiless names knows LabelledItem.name)

theorem sections_labelled :
    (Facts.declarations sequence {}).filterMap (fun declaration => declaration.sec.map (declaration.name, ·)) =
    items.filterMap fun item => item.sec.map (item.name, ·) := by
  obtain ⟨known, knows⟩ := exists_knows mentions
  let place (item : LabelledItem) : Option (String × Section) := item.sec.map (item.name, ·)
  have same := congrArg (List.filterMap id) (declarations_labelled reading bodiless names knows place)
  rwa [List.filterMap_map, List.filterMap_map] at same

/-- Each label is an alias of the columns of its item, the first time that it is declared for some. -/
theorem facts_labelled {kind : StatementKind} (told : StatementKind.ofTokens sequence = .ok kind)
    (plain : kind ≠ .create)
    (clauseless : WithClause.ofTokens sequence = .ok {})
    (means : ∀ name ∈ mentions.filterMap Column.Mention.column?,
      Column.meaning (Table.aliases sequence (Table.names sequence [])) {} name = .ok ([name], name)) :
    (Query.ofText text limits).facts = .ok (Facts.completed (Facts.read sequence {}
      (NameMap.ofFirstPairs ((items.map fun item => (item.name, item.columns)).filterMap labelTarget?))
      (mentions.map Column.Mention.bare))) := by
  have declared := declaredNames_labelled reading bodiless names
  refine facts_meant reading told plain clauseless bodiless means ?_ fun known knows => ?_
  · obtain ⟨known, knows⟩ := exists_knows mentions
    rw [declared]
    exact MentionSpots.mentions_eq reading.annotated bodiless (names known knows)
  · rw [declared]
    exact foldlM_addTarget (expressions reading.annotated bodiless (names known knows))
      (declarations_labelled reading bodiless names knows fun item => (item.name, item.columns)) {}

end Statement

end QueryFacts.Proofs.LabelledItems

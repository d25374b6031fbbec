import QueryFacts.Proofs.PhraseTables

/-! Statements that create a table. A name among the items is taken for a table if UPDATE stands
right before it, or if it begins an item and UPDATE was the last keyword that counts; and a name
right after a table is taken for its alias, in the type of a column as well. -/

namespace QueryFacts

/-- A table with the items of its definition, which commas stand between. -/
structure TableDefinition where
  temporary : Bool := false
  /-- Unless it exists. -/
  optional : Bool := false
  name : String
  items : Phrase

namespace TableDefinition

def keywords (definition : TableDefinition) : List String :=
  "CREATE" :: ((if definition.temporary then ["TEMPORARY"] else []) ++ "TABLE" ::
    if definition.optional then ["IF", "NOT", "EXISTS"] else [])

def statement (definition : TableDefinition) : Phrase :=
  .ofWords (definition.keywords.map .keyword) (.word (.name definition.name) (.group true definition.items .done))

structure Known (definition : TableDefinition) : Prop where
  name : IsBareName definition.name
  items : definition.items.Known

/-- The names among the items that are taken for tables. -/
def caught (definition : TableDefinition) : List String := definition.items.tables ⟨true, false⟩ true

/-- The names among the items that are taken for aliases of what stands before them, if that is a table. -/
def labelled (definition : TableDefinition) : List (String × String) := definition.items.labels ⟨true, false⟩ none none

end TableDefinition

end QueryFacts

namespace QueryFacts.Proofs.TableDefinitions
open Text Lexeme PlainText SelectList ColumnListStatement Spots Phrases PhraseTables Unnested

section Statement

variable {definition : TableDefinition}

private theorem keyword_cases : ∀ text ∈ definition.keywords, text ∈ Word.keywords ∧ text ≠ "AS" := by
  have words : ∀ text ∈ ["CREATE", "TEMPORARY", "TABLE", "IF", "NOT", "EXISTS"], text ∈ Word.keywords ∧
      text ≠ "AS" := by decide
  have among : definition.keywords ⊆ ["CREATE", "TEMPORARY", "TABLE", "IF", "NOT", "EXISTS"] := by
    unfold TableDefinition.keywords
    cases definition.temporary <;> cases definition.optional <;> decide
  exact fun text inside => words text (among inside)

theorem known_statement (known : definition.Known) : definition.statement.Known := by
  refine known_ofWords (fun word member => ?_) ⟨known.name, nofun, known.items, trivial⟩ rfl
  obtain ⟨text, inside, rfl⟩ := List.mem_map.mp member
  exact (keyword_cases text inside).1

theorem tables_statement : definition.statement.tables .none false = definition.name :: definition.caught := by
  obtain ⟨temporary, optional, name, items⟩ := definition
  have whole : (TableDefinition.statement ⟨temporary, optional, name, items⟩).tables .none false =
      name :: (items.tables ⟨true, false⟩ true ++ []) := by
    cases temporary <;> cases optional <;> rfl
  rw [whole, List.append_nil]
  rfl

theorem labels_statement : definition.statement.labels .none none none = definition.labelled := by
  obtain ⟨temporary, optional, name, items⟩ := definition
  have whole : (TableDefinition.statement ⟨temporary, optional, name, items⟩).labels .none none none =
      items.labels ⟨true, false⟩ none none ++ [] := by
    cases temporary <;> cases optional <;> rfl
  rw [whole, List.append_nil]
  rfl

variable {limits : Limits} {sequence : TokenSequence}
  (reading : Reading limits definition.statement.text (definition.statement.lexemes false) sequence)
include reading

theorem kind_statement : StatementKind.ofTokens sequence = .ok .create := by
  have words : (ofKeyword "CREATE" true).normalized = "CREATE" ∧ (ofKeyword "TEMPORARY" true).normalized = "TEMPORARY" ∧
      (ofKeyword "TABLE" true).normalized = "TABLE" := by decide
  have lasting (third : String) :
      StatementKind.ofWords? (ofKeyword "CREATE" true).normalized (ofKeyword "TABLE" true).normalized third =
      some .create := by
    rw [words.1, words.2.2]
    simp [StatementKind.ofWords?]
  have passing : StatementKind.ofWords? (ofKeyword "CREATE" true).normalized (ofKeyword "TEMPORARY" true).normalized
      (ofKeyword "TABLE" true).normalized = some .create := by
    rw [words.1, words.2.1, words.2.2]
    rfl
  have noParen : (ofKeyword "CREATE" true).value ≠ "(" := by decide
  obtain ⟨temporary, optional, name, items⟩ := definition
  cases temporary with
  | false => cases optional <;> exact reading.kind rfl noParen (lasting _)
  | true => cases optional <;> exact reading.kind rfl noParen passing

/-- A query that would define the table has no place among the items. -/
theorem undefined_statement : definesTableByQuery sequence = false := by
  refine reading.undefined fun spot within as => ?_
  let opening : Lexeme := ⟨.punctuation, "(", none, true⟩
  let head := (definition.keywords.map fun text => ofKeyword text true) ++ [ofName definition.name true, opening]
  have split : definition.statement.lexemes false = head ++ (definition.items.lexemes true ++ [closing]) := by
    obtain ⟨temporary, optional, name, items⟩ := definition
    cases temporary <;> cases optional <;> rfl
  have noAs : ∀ lexeme ∈ head, lexeme.reads "AS" = false := by
    intro lexeme member
    rcases List.mem_append.mp member with word | rest
    · obtain ⟨text, inside, rfl⟩ := List.mem_map.mp word
      obtain ⟨known, other⟩ := keyword_cases text inside
      obtain ⟨-, -, same, -⟩ := keyword_facts _ known
      rw [reads, show (ofKeyword text true).normalized = text from same, beq_eq_false_iff_ne.mpr other, Bool.and_false]
    · simp only [List.mem_cons, List.not_mem_nil, or_false] at rest
      rcases rest with rfl | rfl <;> rfl
  have member := within.mem
  rw [split, spots_append _ _ head, spots_append _ _
    (definition.items.lexemes true), List.mem_append, List.mem_append] at member
  rcases member with outside | inside | last
  · cases (noAs _ (here_mem outside)).symm.trans as
  · have opened : ((Context.start (head ++ (definition.items.lexemes true ++ [closing]))).after head).opened ≠ [] := by
      rw [Context.after_append]
      exact List.cons_ne_nil _ _
    exact fun none => opened (List.suffix_nil.mp (none ▸ enclosed_phrase definition.items true spot inside))
  · cases List.mem_singleton.mp (here_mem last) ▸ as

end Statement

section Facts

variable {definition : TableDefinition} {limits : Limits} (known : definition.Known)
  (deep : definition.items.depth < limits.maxNestingDepth)
  (few : (definition.statement.lexemes false).length ≤ limits.maxTokens)
include known deep few

theorem exists_facts_definition : ∃ facts, (Query.ofText definition.statement.text limits).facts = .ok facts ∧
    facts.tables = distinct (definition.name :: definition.caught) ∧
      facts.tableAliases = NameMap.ofPairs (definition.labelled.filter fun pair => facts.tables.contains pair.2) := by
  have depth : definition.statement.depth = definition.items.depth + 1 := by
    obtain ⟨temporary, optional, name, items⟩ := definition
    cases temporary <;> cases optional <;> exact Nat.max_zero _
  obtain ⟨sequence, reading⟩ :=
    exists_reading_phrase (known_statement known).calls (Nat.le_trans (Nat.le_of_eq depth) deep) few
  obtain ⟨facts, read, tables, aliases⟩ := exists_facts_phrase (known_statement known) reading (kind_statement reading)
    (by rw [undefined_statement reading, Bool.and_false])
  change facts.tables = distinct (definition.statement.tables .none false) at tables
  change facts.tableAliases = .ofPairs ((definition.statement.labels .none none none).filter _) at aliases
  rw [tables_statement] at tables
  rw [labels_statement] at aliases
  exact ⟨facts, read, tables, aliases⟩

/-- The tables are the one that is created and the names that are caught, and there are no others only if these
are the same name and no name comes right after it. -/
theorem created_table_iff : ∃ facts, (Query.ofText definition.statement.text limits).facts = .ok facts ∧
    facts.tables = distinct (definition.name :: definition.caught) ∧
      facts.tableAliases = NameMap.ofPairs (definition.labelled.filter fun pair => facts.tables.contains pair.2) ∧
        ((facts.tables = [definition.name] ∧ facts.tableAliases = {}) ↔
          (∀ table ∈ definition.caught, table = definition.name) ∧
              ∀ pair ∈ definition.labelled, pair.2 ≠ definition.name) := by
  obtain ⟨facts, read, tables, aliases⟩ := exists_facts_definition known deep few
  refine ⟨facts, read, tables, aliases, ?_⟩
  have alone : facts.tables = [definition.name] ↔ ∀ table ∈ definition.caught, table = definition.name :=
    tables ▸ distinct_cons_eq_singleton
  rw [← alone]
  refine and_congr_right fun single => ?_
  rw [aliases, NameMap.ofPairs_eq_empty, List.filter_eq_nil_iff, single]
  simp

/-- Without UPDATE among the items the table that is created is the only one. -/
theorem created_table_alone (quiet : ∀ text ∈ definition.items.keywords, Keyword.precedesTables text = false) :
    ∃ facts, (Query.ofText definition.statement.text limits).facts = .ok facts ∧ facts.tables = [definition.name] := by
  obtain ⟨facts, read, tables, -⟩ := exists_facts_definition known deep few
  rw [TableDefinition.caught, tables_of_quiet quiet rfl] at tables
  exact ⟨facts, read, tables⟩

end Facts

/-- The time of the last change is taken for a table, and so is the next column; its type is the alias. -/
theorem created_table_caught : ∃ facts, (Query.ofText
    "CREATE TABLE t (id INT, ts TIMESTAMP DEFAULT 0 ON UPDATE CURRENT_TIMESTAMP, b INT)" {}).facts = .ok facts ∧
      facts.tables = ["t", "CURRENT_TIMESTAMP", "b"] ∧ facts.tableAliases.entries = [("INT", "b")] := by
  let definition : TableDefinition := {
    name := "t"
    items := .ofWords [.name "id", .name "INT"] (.comma (.ofWords [.name "ts", .name "TIMESTAMP", .keyword "DEFAULT",
      .literal (.number false "0"), .keyword "ON", .keyword "UPDATE", .name "CURRENT_TIMESTAMP"] (.comma
        (.ofWords [.name "b", .name "INT"] .done)))) }
  have text : definition.statement.text =
      "CREATE TABLE t (id INT, ts TIMESTAMP DEFAULT 0 ON UPDATE CURRENT_TIMESTAMP, b INT)" := by decide
  have known : definition.Known := ⟨by decide, by decide⟩
  have deep : definition.items.depth < ({} : Limits).maxNestingDepth := by decide
  obtain ⟨facts, read, tables, aliases, -⟩ := created_table_iff known deep (by decide)
  have all : facts.tables = ["t", "CURRENT_TIMESTAMP", "b"] := tables.trans (by decide)
  rw [all] at aliases
  rw [text] at read
  exact ⟨facts, read, all, aliases ▸ by decide⟩

end QueryFacts.Proofs.TableDefinitions

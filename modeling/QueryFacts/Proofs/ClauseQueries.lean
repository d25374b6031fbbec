import QueryFacts.Proofs.FromClauses
import QueryFacts.Proofs.Spots

/-! Statements that select columns from one table, with conditions, groups and an order. Their text,
and the lexemes that it is read as. -/

namespace QueryFacts
open Text

/-- The clauses of such a statement that columns are listed in. -/
inductive ClauseForm where
  | select
  | filter
  | groupBy
  | having
  | orderBy

namespace ClauseForm

def words : ClauseForm → List String
  | select => ["SELECT"]
  | filter => ["WHERE"]
  | groupBy => ["GROUP", "BY"]
  | having => ["HAVING"]
  | orderBy => ["ORDER", "BY"]

def sec : ClauseForm → Section
  | select => .select
  | filter => .filter
  | groupBy => .groupBy
  | having => .having
  | orderBy => .orderBy

/-- What stands between two items. -/
def separator : ClauseForm → Lexeme
  | filter | having => Lexeme.ofKeyword "AND" true
  | select | groupBy | orderBy => Lexeme.comma

/-- The words of the clause in one piece. -/
def keyword (form : ClauseForm) : Lexeme := Lexeme.ofKeyword (String.intercalate " " form.words) true

/-- The clauses after the table, in their order. -/
def later : List ClauseForm := [filter, groupBy, having, orderBy]

end ClauseForm

/-- A column of the table, perhaps with the name of the table before it. -/
structure ClauseColumn where
  qualified : Bool := false
  name : String

namespace ClauseColumn

def parts (table : String) (column : ClauseColumn) : String × List String :=
  if column.qualified then (table, [column.name]) else (column.name, [])

def spelled (table : String) (column : ClauseColumn) : String :=
  if column.qualified then qualify table column.name else column.name

end ClauseColumn

/-- What is said of a column. -/
inductive Demand where
  | nothing
  | equalsOne
  | exceedsOne
  | descending

structure ClauseItem where
  column : ClauseColumn
  demand : Demand := .nothing

/-- The statement. A clause without columns is left out. -/
structure ClauseQuery where
  table : String
  first : ClauseColumn
  more : List ClauseColumn := []
  conditions : List ClauseColumn := []
  groups : List ClauseColumn := []
  groupConditions : List ClauseColumn := []
  /-- The columns of the order, and whether it descends. -/
  orders : List (ClauseColumn × Bool) := []

namespace ClauseQuery

def items (query : ClauseQuery) : ClauseForm → List ClauseItem
  | .select => (query.first :: query.more).map fun column => { column }
  | .filter => query.conditions.map (⟨·, .equalsOne⟩)
  | .groupBy => query.groups.map fun column => { column }
  | .having => query.groupConditions.map (⟨·, .exceedsOne⟩)
  | .orderBy => query.orders.map fun (column, descends) => ⟨column, if descends then .descending else .nothing⟩

/-- The columns of a clause as they are written. -/
def columns (query : ClauseQuery) : Section → List String
  | .select => (query.first :: query.more).map (·.spelled query.table)
  | .filter => query.conditions.map (·.spelled query.table)
  | .groupBy => query.groups.map (·.spelled query.table)
  | .having => query.groupConditions.map (·.spelled query.table)
  | .orderBy => query.orders.map (·.1.spelled query.table)
  | .join | .insert | .update => []

structure Known (query : ClauseQuery) : Prop where
  table : IsUnquoted query.table
  columns : ∀ form, ∀ item ∈ query.items form, IsColumnName item.column.name

end ClauseQuery

end QueryFacts

namespace QueryFacts.Proofs.ClauseQueries
open Text Lexeme PlainText SelectList ColumnListStatement Selections TextParts JoinKeywords FromClauses

def demandLexemes : Demand → List Lexeme
  | .nothing => []
  | .equalsOne => [⟨.operator, "=", none, true⟩, ⟨.integer, "1", none, true⟩]
  | .exceedsOne => [⟨.operator, ">", none, true⟩, ⟨.integer, "1", none, true⟩]
  | .descending => [ofKeyword "DESC" true]

def columnLexemes (table : String) (column : ClauseColumn) : List Lexeme :=
  dottedLexemes true (column.parts table).1 (column.parts table).2

def itemLexemes (table : String) (item : ClauseItem) : List Lexeme :=
  columnLexemes table item.column ++ demandLexemes item.demand

/-- The clause with these words for its keyword. -/
def clauseLexemes (table : String) (form : ClauseForm) (head : List Lexeme) : List ClauseItem → List Lexeme
  | [] => []
  | first :: more =>
    head ++ (itemLexemes table first ++ more.flatMap fun item => form.separator :: itemLexemes table item)

def fromTable (table : String) : List Lexeme := [ofKeyword "FROM" true, ofName table true]

end QueryFacts.Proofs.ClauseQueries

namespace QueryFacts.ClauseQuery
open Proofs.ClauseQueries

def clauseWords (query : ClauseQuery) (form : ClauseForm) : List Lexeme :=
  clauseLexemes query.table form (form.words.map fun word => Lexeme.ofKeyword word true) (query.items form)

def clause (query : ClauseQuery) (form : ClauseForm) : List Lexeme :=
  clauseLexemes query.table form [form.keyword] (query.items form)

def words (query : ClauseQuery) : List Lexeme :=
  query.clauseWords .select ++ fromTable query.table ++ ClauseForm.later.flatMap query.clauseWords

def lexemes (query : ClauseQuery) : List Lexeme :=
  query.clause .select ++ fromTable query.table ++ ClauseForm.later.flatMap query.clause

def text (query : ClauseQuery) : String := String.ofList (Lexeme.written query.words)

end QueryFacts.ClauseQuery

namespace QueryFacts.Proofs.ClauseQueries
open Text Lexeme PlainText SelectList ColumnListStatement Selections TextParts JoinKeywords FromClauses

example : ClauseQuery.text {
    table := "t", first := { name := "a" }, more :=
  [⟨true, "b"⟩], conditions := [⟨false, "c"⟩, ⟨true, "d"⟩], groups := [⟨false, "a"⟩]
    groupConditions := [⟨false, "e"⟩], orders := [(⟨true, "b"⟩, true), (⟨false, "c"⟩, false)] } =
    "SELECT a, t.b FROM t WHERE c = 1 AND t.d = 1 GROUP BY a HAVING e > 1 ORDER BY t.b DESC, c" := by decide

/-- What stands among the names of a clause. -/
def marks : List Lexeme := [dot, comma, ofKeyword "AND" true, ofKeyword "DESC" true, ⟨.operator, "=", none, true⟩,
  ⟨.operator, ">", none, true⟩, ⟨.integer, "1", none, true⟩]

section Items

variable {table : String} {item : ClauseItem} {lexeme : Lexeme}

theorem mark_facts : ∀ lexeme ∈ marks, lexeme.side? = none ∧ Alone lexeme ∧ lexeme.reads "WITH" = false ∧
    (lexeme.isKeyword = true → Keyword.isInsignificant lexeme.normalized = true) := by
  unfold Alone
  decide

theorem mem_columnLexemes {column : ClauseColumn} (member : lexeme ∈ columnLexemes table column) :
    (∃ name apart, lexeme = ofName name apart) ∨ lexeme ∈ marks := by
  rcases List.mem_cons.mp member with rfl | later
  · exact .inl ⟨_, _, rfl⟩
  · obtain ⟨part, -, here⟩ := List.mem_flatMap.mp later
    simp only [List.mem_cons, List.not_mem_nil, or_false] at here
    rcases here with rfl | rfl
    · exact .inr List.mem_cons_self
    · exact .inl ⟨_, _, rfl⟩

theorem mem_demandLexemes {demand : Demand} (member : lexeme ∈ demandLexemes demand) : lexeme ∈ marks := by
  have inside : demandLexemes demand ⊆ marks := by cases demand <;> decide
  exact inside member

theorem mem_itemLexemes (member : lexeme ∈ itemLexemes table item) :
    (∃ name apart, lexeme = ofName name apart) ∨ lexeme ∈ marks :=
  (List.mem_append.mp member).elim mem_columnLexemes fun after => .inr (mem_demandLexemes after)

theorem separator_mem_marks (form : ClauseForm) : form.separator ∈ marks := by cases form <;> decide

/-- A lexeme of a clause belongs to its keyword, or it is a name or a mark. -/
theorem mem_clauseLexemes {form : ClauseForm} {head : List Lexeme} {items : List ClauseItem}
    (member : lexeme ∈ clauseLexemes table form head items) :
    lexeme ∈ head ∨ (∃ name apart, lexeme = ofName name apart) ∨ lexeme ∈ marks := by
  cases items with
  | nil => cases member
  | cons first more =>
    rcases List.mem_append.mp member with begins | later
    · exact .inl begins
    · refine .inr ?_
      rcases List.mem_append.mp later with here | others
      · exact mem_itemLexemes here
      · obtain ⟨item, -, inside⟩ := List.mem_flatMap.mp others
        rcases List.mem_cons.mp inside with rfl | after
        · exact .inr (separator_mem_marks form)
        · exact mem_itemLexemes after

end Items

section Texts

variable {table : String} {query : ClauseQuery}

theorem words_facts (form : ClauseForm) :
    ∀ word ∈ form.words, isIdentifier word.toList = true ∧ Keyword.isReserved (upper word) = true := by
  cases form <;> decide

theorem part_item (known : IsUnquoted table) {item : ClauseItem} (column : IsUnquoted item.column.name) :
    Part false (itemLexemes table item) := by
  obtain ⟨⟨qualified, name⟩, demand⟩ := item
  have parts :
      ∀ part ∈ (ClauseColumn.parts table ⟨qualified, name⟩).1 :: (ClauseColumn.parts table ⟨qualified, name⟩).2,
      IsUnquoted part := by
    cases qualified with
    | false => exact List.forall_mem_singleton.mpr column
    | true => exact List.forall_mem_cons.mpr ⟨known, List.forall_mem_singleton.mpr column⟩
  have begins : Part false (columnLexemes table ⟨qualified, name⟩) := part_dotted parts rfl
  have one : Part false [(⟨.integer, "1", none, true⟩ : Lexeme)] :=
    part_single (.number (show isNumeral "1".toList = true by decide) rfl)
      ⟨rfl, nofun, nofun, by decide, by decide⟩ ⟨nofun, nofun⟩
  have operator {symbol : String} (plain : (⟨.operator, symbol, none, true⟩ : Lexeme).Plain)
      (noParen : symbol ≠ "(" ∧ symbol ≠ "*") :
      Part false
          (columnLexemes table ⟨qualified, name⟩ ++ [⟨.operator, symbol, none, true⟩, ⟨.integer, "1", none, true⟩]) :=
    part_operator begins (List.cons_ne_nil _ _) one plain ⟨rfl, rfl⟩ noParen ⟨_, _, rfl, rfl⟩
  cases demand with
  | nothing => exact begins.append (part_nil false)
  | equalsOne => exact operator (.operator (.inr (.inr (.inr rfl)))) (by decide)
  | exceedsOne => exact operator (.comparison (by decide)) (by decide)
  | descending => exact begins.append (part_keyword (by decide) (by decide))

theorem part_separator (form : ClauseForm) : Part false [form.separator] := by
  have and : Part false [ofKeyword "AND" true] := part_keyword (by decide) (by decide)
  cases form with
  | filter | having => exact and
  | select | groupBy | orderBy => exact part_comma

theorem part_clause (known : query.Known) (form : ClauseForm) : Part false (query.clauseWords form) := by
  have item (item : ClauseItem) (member : item ∈ query.items form) : Part false (itemLexemes query.table item) :=
    part_item known.table (known.columns form item member).unquoted
  unfold ClauseQuery.clauseWords
  cases items : query.items form with
  | nil => exact part_nil false
  | cons first more =>
    rw [items] at item
    have head : Part false (form.words.map fun word => ofKeyword word true) := by
      rw [← List.flatMap_pure_eq_map]
      exact part_flatMap fun word member =>
        part_keyword (words_facts form word member).1 (words_facts form word member).2
    have others : Part false (more.flatMap fun item => form.separator :: itemLexemes query.table item) :=
      part_flatMap fun other member => (part_separator form).append (item other (List.mem_cons_of_mem _ member))
    exact head.append ((item first List.mem_cons_self).append others)

theorem readable_query (known : query.Known) : Readable query.words := by
  have from' : Part false [ofKeyword "FROM" true] := part_keyword (by decide) (by decide)
  have table : Part false (fromTable query.table) := from'.append (part_name known.table.spelled known.table.free rfl)
  have whole : Part false query.words :=
    ((part_clause known .select).append table).append (part_flatMap fun form _ => part_clause known form)
  refine whole.readable fun lexeme found => ?_
  cases found
  exact ⟨rfl, nofun⟩

end Texts

section Merging

theorem merge_keyword (form : ClauseForm) (rest : List Lexeme) :
    mergeCompounds (form.words.map (fun word => ofKeyword word true) ++ rest) =
        form.keyword :: mergeCompounds rest := by
  have alone : ∀ word ∈ ["SELECT", "WHERE", "HAVING"], ∀ lexeme ∈ [ofKeyword word true], Alone lexeme := by
    unfold Alone
    decide
  cases form with
  | groupBy => exact mergeCompounds_by (by decide) rest
  | orderBy => exact mergeCompounds_by (by decide) rest
  | select => exact mergeCompounds_alone (alone "SELECT" (by decide)) rest
  | filter => exact mergeCompounds_alone (alone "WHERE" (by decide)) rest
  | having => exact mergeCompounds_alone (alone "HAVING" (by decide)) rest

variable (query : ClauseQuery)

theorem merge_clause (form : ClauseForm) (rest : List Lexeme) :
    mergeCompounds (query.clauseWords form ++ rest) = query.clause form ++ mergeCompounds rest := by
  unfold ClauseQuery.clauseWords ClauseQuery.clause
  cases query.items form with
  | nil => rfl
  | cons first more =>
    let list := itemLexemes query.table first ++ more.flatMap fun item => form.separator :: itemLexemes query.table item
    have alone : ∀ lexeme ∈ list, Alone lexeme := by
      intro lexeme member
      have inside : lexeme ∈ clauseLexemes query.table form [] (first :: more) := member
      rcases mem_clauseLexemes inside with none | ⟨name, apart, rfl⟩ | mark
      · cases none
      · exact ⟨rfl, rfl⟩
      · exact (mark_facts lexeme mark).2.1
    change mergeCompounds (form.words.map (fun word => ofKeyword word true) ++ list ++ rest) =
        form.keyword :: list ++ mergeCompounds rest
    rw [List.append_assoc, merge_keyword, mergeCompounds_alone alone, List.cons_append]

theorem merge_query : mergeCompounds query.words = query.lexemes := by
  have table : ∀ lexeme ∈ fromTable query.table, Alone lexeme := by
    have from' : Alone (ofKeyword "FROM" true) := by
      unfold Alone
      decide
    exact List.forall_mem_cons.mpr ⟨from', List.forall_mem_singleton.mpr ⟨rfl, rfl⟩⟩
  have later (forms : List ClauseForm) :
      mergeCompounds (forms.flatMap query.clauseWords) = forms.flatMap query.clause := by
    induction forms with
    | nil =>
      unfold mergeCompounds
      rw [List.flatMap_nil, compounds]
      rfl
    | cons form forms ih => rw [List.flatMap_cons, merge_clause, ih, List.flatMap_cons]
  rw [ClauseQuery.words, List.append_assoc, merge_clause, mergeCompounds_alone table, later,
    ClauseQuery.lexemes, List.append_assoc]

/-- A clause has no parentheses and no WITH. -/
theorem clause_facts (form : ClauseForm) :
    ∀ lexeme ∈ query.clause form, lexeme.side? = none ∧ lexeme.reads "WITH" = false := by
  have keyword : form.keyword.side? = none ∧ form.keyword.reads "WITH" = false := by cases form <;> decide
  intro lexeme member
  rcases mem_clauseLexemes member with head | ⟨name, apart, rfl⟩ | mark
  · exact List.mem_singleton.mp head ▸ keyword
  · exact ⟨rfl, rfl⟩
  · exact ⟨(mark_facts lexeme mark).1, (mark_facts lexeme mark).2.2.1⟩

theorem lexeme_facts : ∀ lexeme ∈ query.lexemes, lexeme.side? = none ∧ lexeme.reads "WITH" = false := by
  intro lexeme member
  rcases List.mem_append.mp member with front | later
  · rcases List.mem_append.mp front with select | table
    · exact clause_facts query .select lexeme select
    · rcases List.mem_cons.mp table with rfl | last
      · decide
      · exact List.mem_singleton.mp last ▸ ⟨rfl, rfl⟩
  · obtain ⟨form, -, inside⟩ := List.mem_flatMap.mp later
    exact clause_facts query form lexeme inside

end Merging

end QueryFacts.Proofs.ClauseQueries

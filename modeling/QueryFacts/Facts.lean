import QueryFacts.Alias
import QueryFacts.Section

/-! What is known about a statement once it is analyzed. -/

namespace QueryFacts

structure Facts where
  /-- In order of first appearance, without common table expressions. -/
  tables : List String := []
  tableAliases : NameMap String := {}
  /-- In order of first appearance, with the tables behind their aliases, and with the
  columns behind those of sub-queries and common table expressions. -/
  columns : List String := []
  /-- The columns with those of sub-queries and common table expressions as written. -/
  writtenColumns : List String := []
  /-- The columns of each clause, with those that an alias stands for in its place. -/
  columnsBySection : SectionMap := []
  aliasNames : List String := []
  aliases : NameMap AliasTarget := {}
  /-- The aliases declared and used in each clause. -/
  aliasesBySection : SectionMap := []
  /-- The body of each common table expression, in the order of their declarations. -/
  withQueries : NameMap String := {}
  /-- The body of each sub-query that has an alias, inner ones first. -/
  subqueries : NameMap String := {}

namespace Facts

/-- The columns of the select list. -/
def selected (facts : Facts) : List String := (facts.columnsBySection.find? .select).getD []

end Facts

end QueryFacts

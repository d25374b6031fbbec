import QueryFacts.Alias.Declaration
import QueryFacts.Column
import QueryFacts.Nesting
import QueryFacts.Normalize
import QueryFacts.Subquery
import QueryFacts.Table

/-! The analysis of a statement: first the WITH clauses and sub-queries, whose names are
no tables, then the tables, then the columns and their aliases, which need all of these.
The bodies of sub-queries and common table expressions are analyzed in the same way, one
level deeper than the statement that they stand in. -/

namespace QueryFacts

/-- A table defined by a query, which is not supported. -/
def definesTableByQuery (tokens : TokenSequence) : Bool :=
  tokens.cursors.any fun cursor =>
    cursor.isWord "AS" && !cursor.isInParenthesis && (cursor.next.isWord "SELECT" || cursor.next.isLeftParen)

namespace Bodies

/-- The named bodies of a statement. A sub-query hides a common table expression of its name. -/
def ofStatement (tokens : TokenSequence) (clause : WithClause) (subqueries : NameMap String)
    (analyze : String → Except Error Facts) : Bodies where
  facts := NameMap.ofFirstPairs ((subqueries.entries ++ clause.bodies.entries).map fun (name, body) =>
    (name, Thunk.mk fun _ => analyze body))
  columnLists := NameMap.ofPairs (clause.columnLists.map fun list =>
    (list.query, list.columns.map fun position => (tokens.cursor position).value))

end Bodies

namespace Facts

/-- Notes where an alias is declared. -/
def addDeclaration (facts : Facts) (declaration : AliasDeclaration) : Facts :=
  match declaration.sec with
  | some sec => { facts with aliasesBySection := SectionMap.add sec [declaration.name] facts.aliasesBySection }
  | none => facts

/-- Notes a reference to a column. A name that turned out to be no alias is a column. -/
def addReference (facts : Facts) : Column.Reference → Facts
  | .column columns written sec => { facts with
      columnsBySection := match sec with
        | some sec => SectionMap.add sec columns facts.columnsBySection
        | none => facts.columnsBySection
      columns := addAllNew facts.columns columns
      writtenColumns := addNew facts.writtenColumns written }
  | .aliasName name sec =>
    if facts.aliases.contains name then
      { facts with aliasesBySection := SectionMap.add sec [name] facts.aliasesBySection }
    else { facts with
      columnsBySection := SectionMap.add sec [name] facts.columnsBySection
      columns := addNew facts.columns name
      writtenColumns := addNew facts.writtenColumns name }

/-- Gives each clause the columns that its aliases stand for. -/
def addAliasColumns (facts : Facts) (use : Section × List String) : Facts :=
  let columns := (use.2.filter facts.aliases.contains).map (Alias.resolve facts.aliases)
  { facts with columnsBySection :=
    columns.foldl (fun map names => SectionMap.add use.1 names map) facts.columnsBySection }

/-- Columns that only an alias leads to come last. -/
def completeColumns (facts : Facts) : Facts :=
  { facts with columns := addAllNew facts.columns (facts.columnsBySection.flatMap (·.2)) }

/-- The facts of a statement. `analyze` gives the facts of a body. -/
def ofTokens (tokens : TokenSequence) (kind : StatementKind) (analyze : String → Except Error Facts) :
    Except Error Facts := do
  if kind == .create && definesTableByQuery tokens then throw .createTableAsSelect
  let clause ← WithClause.ofTokens tokens
  let subqueries := Subquery.bodies tokens
  let tables := Table.names tokens clause.names
  let tableAliases := Table.aliases tokens tables
  let declarations := AliasDeclaration.ofTokens tokens clause (clause.names ++ subqueries.keys)
  let aliasNames := distinct (declarations.map (·.name))
  let bodies := Bodies.ofStatement tokens clause subqueries analyze
  let scan ← Column.scan tokens kind tableAliases aliasNames (declarations.map (·.position)) bodies
  let aliases ← AliasDeclaration.targets declarations tokens ⟨scan.known, aliasNames⟩ bodies
  let facts : Facts := { tables, tableAliases, aliasNames, aliases, withQueries := clause.bodies, subqueries }
  let facts := declarations.foldl addDeclaration facts
  let facts := scan.references.foldl addReference facts
  return (facts.aliasesBySection.foldl addAliasColumns facts).completeColumns

end Facts

/-- The tokens of a query text. -/
def queryTokens (limits : Limits) (text : String) : Except Error TokenSequence :=
  tokenize limits (normalize text.toList)

/-- The facts of a statement whose bodies `analyze` sees to. -/
def statementFacts (limits : Limits) (text : String) (analyze : String → Except Error Facts) : Except Error Facts := do
  let tokens ← queryTokens limits text
  let kind ← StatementKind.ofTokens tokens
  Facts.ofTokens tokens kind analyze

/-- The facts of a statement `depth` bodies deep, below which `levels` more are allowed. -/
def factsWithin (limits : Limits) : (levels depth : Nat) → String → Except Error Facts
  | 0, depth, text =>
    statementFacts limits text fun _ => .error (.recursionLimit (depth + 1) limits.maxRecursionDepth)
  | levels + 1, depth, text => statementFacts limits text (factsWithin limits levels (depth + 1))

/-- The facts of a statement `depth` bodies deep. -/
def factsAt (limits : Limits) (depth : Nat) (text : String) : Except Error Facts :=
  factsWithin limits (limits.maxRecursionDepth - depth) depth text

end QueryFacts

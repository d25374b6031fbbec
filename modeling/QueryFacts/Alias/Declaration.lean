import QueryFacts.Body
import QueryFacts.Cursor
import QueryFacts.WithClause

/-! Where a statement declares aliases of columns: after AS, right after an expression,
or in the column list of a common table expression. -/

namespace QueryFacts

inductive DeclarationKind where
  /-- The alias of an expression in front of it. -/
  | expression
  /-- The name at a place of the column list of a common table expression. -/
  | withColumn (query : String) (place : Nat)
  deriving DecidableEq

structure AliasDeclaration where
  name : String
  position : Nat
  sec : Option Section
  kind : DeclarationKind
  deriving DecidableEq

namespace AliasDeclaration

/-- A name between an expression and the end of its item in a select list. -/
def isAliasWithoutAs (cursor : Cursor) : Bool :=
  let before := cursor.previous
  let after := cursor.next
  let endsItem := after.isEmpty || after.isComma || after.isWord "FROM" || after.closes .subquery
    || after.closes .columnDefinition || after.closes .withQuery
  let followsExpression := before.isName || before.isLiteral || before.closes .nestedFunction
    || before.closes .columnDefinition || before.isWord "END"
  cursor.isName && cursor.lastKeyword == "SELECT" && !cursor.isInNestedFunction && endsItem && followsExpression

def isExpressionAlias (cursor : Cursor) : Bool :=
  let before := cursor.previous
  let inPlace := cursor.isName && !cursor.next.isDot && !cursor.next.isLeftParen
    && Keyword.precedesColumns cursor.lastKeyword && cursor.lastKeyword != "USING"
  inPlace && ((before.isWord "AS" && !cursor.isInTypeCast) || before.closes .nestedFunction
    || before.closes .columnDefinition || isAliasWithoutAs cursor)

def ofExpressions (tokens : TokenSequence) (reserved : List String) : List AliasDeclaration :=
  (tokens.cursors.filter fun cursor => isExpressionAlias cursor && !reserved.contains cursor.value).filterMap
    fun cursor => cursor.index.map fun position =>
      ⟨cursor.value, position, Section.ofKeyword? cursor.lastKeyword, .expression⟩

def ofColumnList (tokens : TokenSequence) (list : WithColumnList) : List AliasDeclaration :=
  list.columns.zipIdx.map fun (position, place) =>
    ⟨(tokens.cursor position).value, position, none, .withColumn list.query place⟩

/-- Every declaration in the order of the statement. A name of `reserved` is no alias. -/
def ofTokens (tokens : TokenSequence) (clause : WithClause) (reserved : List String) : List AliasDeclaration :=
  (ofExpressions tokens reserved ++ clause.columnLists.flatMap (ofColumnList tokens)).mergeSort
    fun first second => first.position ≤ second.position

/-- The names of `known` are columns met before, with the columns they stand for, and
`names` are the aliases of the statement. -/
structure Scope where
  known : NameMap (List String)
  names : List String

namespace Scope

/-- A name or wildcard that the scope can tell from a function or a type. -/
def covers (scope : Scope) (cursor : Cursor) : Bool :=
  !cursor.next.isDot && (cursor.isName || cursor.isWildcard)
    && (cursor.isWildcard || scope.known.contains cursor.dottedName || scope.names.contains cursor.dottedName)

def columnsOf (scope : Scope) (cursor : Cursor) : List String :=
  (scope.known.find? cursor.dottedName).getD [cursor.dottedName]

/-- The columns between the last separator of items before an alias and the alias. -/
def itemColumns (scope : Scope) (label : Cursor) : List String :=
  let depth := label.enclosing.index
  let start := label.find .left fun cursor =>
    cursor.enclosing.index == depth
      && (cursor.isComma || (cursor.isKeyword && Keyword.precedesColumns cursor.normalized))
  let first := match start.index with
    | some index => index + 1
    | none => 0
  let item := (List.range' first (label.index.getD 0 - first)).map label.moveTo
  distinct ((item.filter scope.covers).flatMap scope.columnsOf)

/-- The columns of the expression that an alias names: of a select in parentheses the
first column, and otherwise all columns of the item. -/
def expressionColumns (scope : Scope) (label : Cursor) : List String :=
  let before := label.previous
  let last := if before.isWord "AS" then before.previous else before
  if last.closes .columnDefinition && last.matching.next.isWord "SELECT" then
    let found := last.matching.next.find .right fun cursor => !cursor.isBefore last || scope.covers cursor
    if found.isBefore last then scope.columnsOf found else []
  else scope.itemColumns label

end Scope

/-- What a declared name stands for. -/
def columns (declaration : AliasDeclaration) (tokens : TokenSequence) (scope : Scope) (bodies : Bodies) :
    Except Error (List String) :=
  match declaration.kind with
  | .expression => .ok (scope.expressionColumns (tokens.cursor declaration.position))
  | .withColumn query place => (bodies.selectedAt query place).map Option.toList

/-- An alias of nothing or of itself is none. -/
def target? (name : String) : List String → Option AliasTarget
  | [] => none
  | [single] => if single = name then none else some (.column single)
  | names => some (.columns names)

/-- Resolves one more declaration; a name that has a target keeps it. -/
def addTarget (tokens : TokenSequence) (scope : Scope) (bodies : Bodies) (aliases : NameMap AliasTarget)
    (declaration : AliasDeclaration) : Except Error (NameMap AliasTarget) :=
  if aliases.contains declaration.name then .ok aliases
  else (declaration.columns tokens scope bodies).map fun names => match target? declaration.name names with
    | some target => aliases.insertNew declaration.name target
    | none => aliases

/-- What each declared alias stands for. -/
def targets (declarations : List AliasDeclaration) (tokens : TokenSequence) (scope : Scope) (bodies : Bodies) :
    Except Error (NameMap AliasTarget) :=
  declarations.foldlM (addTarget tokens scope bodies) {}

end AliasDeclaration

end QueryFacts

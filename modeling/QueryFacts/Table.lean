import QueryFacts.Cursor
import QueryFacts.Distinct
import QueryFacts.NameMap

/-! The tables of a statement and the aliases they are given. -/

namespace QueryFacts.Table

/-- Among names in a parenthesis after the keyword that is no sub-query: these are
columns, as in `INSERT INTO t (a, b)`. -/
def isInColumnList (cursor : Cursor) : Bool :=
  let paren := cursor.enclosing
  !paren.opens .subquery && match paren.index, cursor.lastKeyword? with
    | some opening, some keyword => keyword.position < opening
    | _, _ => false

/-- The table that a token names: in a list of tables, a dotted name or the first name
of an item. -/
def name? (cursor : Cursor) : Option String :=
  let before := cursor.previous
  if !cursor.isName || !Keyword.precedesTables cursor.lastKeyword then none
  else if before.isWord "AS" || before.isWord "WITH" || cursor.next.isDot || isInColumnList cursor then none
  else if before.isDot then some cursor.dottedName
  else
    let startsItem := before.normalized == cursor.lastKeyword || before.isWord "EXISTS" || before.isPunctuation
    if startsItem && !before.isRightParen then some cursor.value else none

/-- The tables in order of first appearance, without common table expressions. -/
def names (tokens : TokenSequence) (withNames : List String) : List String :=
  (distinct (tokens.cursors.filterMap name?)).filter (!withNames.contains ·)

/-- The alias that a token gives to one of `tables`, and the table. -/
def alias? (tables : List String) (cursor : Cursor) : Option (String × String) :=
  let before := cursor.previous
  if !cursor.isName || !Keyword.precedesTables cursor.lastKeyword then none
  else if cursor.next.isWord "AS" || cursor.next.isDot || before.isDot then none
  else
    let table := (if before.isWord "AS" then before.previous else before).dottedName
    if tables.contains table then some (cursor.value, table) else none

/-- The table of each alias. -/
def aliases (tokens : TokenSequence) (tables : List String) : NameMap String :=
  NameMap.ofPairs (tokens.cursors.filterMap (alias? tables))

end QueryFacts.Table

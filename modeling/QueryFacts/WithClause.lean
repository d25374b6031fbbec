import QueryFacts.Cursor
import QueryFacts.Error
import QueryFacts.NameMap

/-! The WITH clauses of a statement: the common table expressions that they declare. -/

namespace QueryFacts

/-- The column names declared after the name of a common table expression. -/
structure WithColumnList where
  query : String
  /-- The positions of the names. -/
  columns : List Nat
  deriving DecidableEq

structure WithClause where
  /-- The text of each body; of two bodies of one name the first. -/
  bodies : NameMap String := {}
  columnLists : List WithColumnList := []

namespace WithClause

def names (clause : WithClause) : List String := clause.bodies.keys

/-- A keyword can be a name where the syntax leaves no doubt. -/
def isQueryName (cursor : Cursor) : Bool :=
  cursor.isName || (cursor.isKeyword && (cursor.next.isWord "AS" || cursor.next.opens .withColumns))

/-- The last part of the dotted name that starts at the token, at most `count` parts on. -/
def lastNamePart : Nat → Cursor → Cursor
  | 0, cursor => cursor
  | count + 1, cursor =>
    if cursor.next.isDot && cursor.next.next.isName then lastNamePart count cursor.next.next else cursor

private def fault (cursor : Cursor) (fault : WithFault) : Error := .malformedWith (cursor.index.getD 0) fault

/-- The body that starts at `opening`, added to the clause under a name. The second
result is the first token of the next declaration, if a comma follows. -/
def readBody (clause : WithClause) (name : String) (opening : Cursor) : Except Error (WithClause × Option Cursor) :=
  if !opening.opens .withQuery then .error (fault opening .expectedBody)
  else match opening.index, opening.matching.index with
    | some first, some last =>
      let clause := { clause with bodies := clause.bodies.insertNew name (opening.sequence.write first last) }
      let after := opening.matching.next
      if after.isComma then .ok (clause, some after.next)
      else if after.isWord "AS" then .error (fault after .unexpectedAs)
      else .ok (clause, none)
    | _, _ => .error (fault opening .unclosedBody)

/-- The declaration that starts at a token: a name, perhaps a column list, AS, and a body. -/
def readQuery (clause : WithClause) (start : Cursor) : Except Error (WithClause × Option Cursor) :=
  if !isQueryName start then .error (fault start .expectedName)
  else
    let last := lastNamePart start.sequence.size start
    let name := last.dottedName
    let list := last.next
    let (clause, after) :=
      if list.opens .withColumns then
        let columns := (list.between list.matching).filter fun cursor => cursor.isName && !cursor.next.isDot
        ({ clause with columnLists := clause.columnLists ++ [⟨name, columns.filterMap (·.index)⟩] }, list.matching.next)
      else (clause, list)
    if after.isWord "AS" then readBody clause name after.next else .error (fault after .expectedAs)

/-- Declarations from a token on, at most `count` of them. -/
def readQueries (clause : WithClause) : Nat → Cursor → Except Error WithClause
  | 0, _ => .ok clause
  | count + 1, start =>
    match readQuery clause start with
    | .error error => .error error
    | .ok (clause, none) => .ok clause
    | .ok (clause, some next) => readQueries clause count next

/-- WITH at the start of a query. -/
def isHeader (cursor : Cursor) : Bool :=
  cursor.isWord "WITH" && (cursor.previous.isEmpty || cursor.previous.isLeftParen)

def readHeader (clause : WithClause) (header : Cursor) : Except Error WithClause :=
  let start := if header.next.isWord "RECURSIVE" then header.next.next else header.next
  readQueries clause header.sequence.size start

/-- Everything that the WITH clauses of a statement declare. -/
def ofTokens (tokens : TokenSequence) : Except Error WithClause :=
  (tokens.cursors.filter isHeader).foldlM readHeader {}

end WithClause

end QueryFacts

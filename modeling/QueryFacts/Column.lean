import QueryFacts.Body
import QueryFacts.Cursor
import QueryFacts.StatementKind

/-! The places where a statement mentions columns, and the columns that it means there. -/

namespace QueryFacts.Column
open Text

/-- A mention of a column as it stands in the statement. -/
inductive Mention where
  | column (spelled : String) (sec : Section)
  /-- A bare name that is an alias of the statement. -/
  | aliasName (name : String) (sec : Section)
  deriving DecidableEq

inductive Reference where
  /-- `columns` are the columns meant, and `written` is the mention with the alias of its
  table replaced. -/
  | column (columns : List String) (written : String) (sec : Option Section)
  | aliasName (name : String) (sec : Section)
  deriving DecidableEq

/-- The clause of a name in a place for columns. -/
def section? (cursor : Cursor) : Option Section :=
  let keyword := cursor.lastKeyword
  if keyword = "INTO" then
    let openedAfter := match cursor.enclosing.index, cursor.lastKeyword? with
      | some opening, some mark => decide (mark.position < opening)
      | _, _ => false
    if openedAfter && cursor.previous.isPunctuation then some .insert else none
  else if keyword = "USING" then
    if cursor.enclosing.previous.isWord "USING" then some .join else none
  else if Keyword.precedesColumns keyword then Section.ofKeyword? keyword
  else none

/-- The unit of an interval such as `INTERVAL -13 MONTH`. -/
def isIntervalUnit (cursor : Cursor) : Bool :=
  let amount := cursor.previous
  let sign := amount.previous
  let before := if sign.value == "-" || sign.value == "+" then sign.previous else sign
  (amount.isInteger || amount.isLiteral) && before.isWord "INTERVAL"

/-- Names in a place for columns that are something else: qualifiers, functions, types,
aliases, units of intervals, and names being declared. -/
def isExcluded (cursor : Cursor) (declared : List Nat) : Bool :=
  let before := cursor.previous
  cursor.next.isDot || cursor.next.isLeftParen || Keyword.isIgnoredFunction cursor.normalized
    || before.isWord "AS" || before.isRightParen || before.value == "::"
    || isIntervalUnit cursor || cursor.index.any declared.contains
    || cursor.enclosing.opens .withColumns || cursor.enclosing.opens .createTableColumns

/-- The mention of a column at a token. `declared` are the positions of aliases. -/
def mention? (aliasNames : List String) (declared : List Nat) (cursor : Cursor) : Option Mention :=
  if cursor.isWildcard then
    if cursor.lastKeyword == "SELECT" && !cursor.previous.isLeftParen then some (.column cursor.dottedName .select)
    else none
  else if !cursor.isName || isExcluded cursor declared then none
  else (section? cursor).map fun sec =>
    let spelled := cursor.dottedName
    if !spelled.toList.contains '.' && aliasNames.contains spelled then .aliasName spelled sec else .column spelled sec

def mentions (tokens : TokenSequence) (aliasNames : List String) (declared : List Nat) : List Mention :=
  tokens.cursors.filterMap (mention? aliasNames declared)

/-- The columns that a mention means, and the mention with the alias of its table replaced. -/
def meaning (tableAliases : NameMap String) (bodies : Bodies) (spelled : String) :
    Except Error (List String × String) :=
  match splitQualified? spelled with
  | none => .ok ([spelled], spelled)
  | some (qualifier, column) =>
    match tableAliases.find? qualifier with
    | some table => .ok ([qualify table column], qualify table column)
    | none =>
      if bodies.contains qualifier then (bodies.resolve qualifier column).map (·, spelled)
      else .ok ([spelled], spelled)

/-- References in order, and the columns that each spelling was found to mean. -/
structure Scan where
  references : List Reference := []
  known : NameMap (List String) := {}

def Scan.add (tableAliases : NameMap String) (bodies : Bodies) (scan : Scan) : Mention → Except Error Scan
  | .aliasName name sec => .ok { scan with references := scan.references ++ [.aliasName name sec] }
  | .column spelled sec =>
    (meaning tableAliases bodies spelled).map fun (columns, written) => {
      references := scan.references ++ [.column columns written (some sec)]
      known := scan.known.insertNew spelled columns }

/-- The first of each run of tokens between separators. The token after a separator
starts an item even when it is a separator itself. -/
def itemStarts (separates : Cursor → Bool) : List Cursor → List Cursor
  | [] => []
  | start :: rest => start :: itemStarts separates ((rest.dropWhile (!separates ·)).drop 1)
termination_by cursors => cursors.length
decreasing_by
  have shorter := (List.dropWhile_suffix (!separates ·) (l := rest)).length_le
  simp only [List.length_drop, List.length_cons]
  omega

/-- The columns that a table definition declares. -/
def defined (tokens : TokenSequence) : List Reference :=
  (tokens.cursors.filter (·.opens .createTableColumns)).flatMap fun opening =>
    let separates := fun cursor : Cursor => cursor.isComma && cursor.enclosing.index == opening.index
    let starts := itemStarts separates (opening.between opening.matching)
    (starts.filter fun start => start.isName && !Keyword.isTableConstraint start.normalized).map fun start =>
      .column [start.value] start.value none

/-- Every reference to a column in the statement. -/
def scan (tokens : TokenSequence) (kind : StatementKind) (tableAliases : NameMap String) (aliasNames : List String)
    (declared : List Nat) (bodies : Bodies) : Except Error Scan :=
  if kind = .create then .ok { references := defined tokens }
  else (mentions tokens aliasNames declared).foldlM (Scan.add tableAliases bodies) {}

end QueryFacts.Column

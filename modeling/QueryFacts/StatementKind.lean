import QueryFacts.Error
import QueryFacts.Token

/-! The kinds of statements, told by their first words. -/

namespace QueryFacts

inductive StatementKind where
  | select
  | insert
  | replace
  | update
  | create
  | alter
  | drop
  | truncate
  deriving DecidableEq

namespace StatementKind

def name : StatementKind → String
  | select => "SELECT"
  | insert => "INSERT"
  | replace => "REPLACE"
  | update => "UPDATE"
  | create => "CREATE TABLE"
  | alter => "ALTER TABLE"
  | drop => "DROP TABLE"
  | truncate => "TRUNCATE TABLE"

/-- Statements of this kind carry lists of values. -/
def hasValues : StatementKind → Bool
  | insert | replace => true
  | _ => false

/-- The kind of a statement with these first words in normal form. -/
def ofWords? (first second third : String) : Option StatementKind :=
  if first = "SELECT" ∨ first = "WITH" then some select
  else if first = "INSERT" then some insert
  else if first = "REPLACE" then some replace
  else if first = "UPDATE" then some update
  else if first = "CREATE" ∧ (second = "TABLE" ∨ (second = "TEMPORARY" ∧ third = "TABLE")) then some create
  else if first = "ALTER" ∧ second = "TABLE" then some alter
  else if first = "DROP" ∧ second = "TABLE" then some drop
  else if first = "TRUNCATE" then some truncate
  else none

/-- The kind of a statement. Parentheses around its first query do not count. -/
def ofTokens (tokens : TokenSequence) : Except Error StatementKind :=
  match (tokens.tokens.toList.dropWhile (·.value == "(")).map (·.normalized) with
  | [] => .error .emptyQuery
  | first :: rest =>
    let second := rest.head?.getD ""
    match ofWords? first second ((rest.drop 1).head?.getD "") with
    | some kind => .ok kind
    | none => .error (.unsupportedStatement (if second = "" then [first] else [first, second]))

end StatementKind

end QueryFacts

import QueryFacts.FileTree
import QueryFacts.Query
import QueryFacts.Statement

/-! Reports on the statements of scripts and files. A statement that cannot be analyzed
is reported with what is wrong with it, and the others are not affected. -/

namespace QueryFacts

/-- What is reported about a statement without errors. -/
structure Findings where
  kind : StatementKind
  facts : Facts
  rowLimit : Option RowLimit
  assignments : List (String × Value)
  comments : List String

structure Report where
  /-- The path of the file that the statement is from. -/
  source : Option String
  sql : String
  outcome : Except Error Findings

namespace Findings

def ofQuery (query : Query) : Except Error Findings := do
  return {
    kind := ← query.kind
    facts := ← query.facts
    rowLimit := ← query.rowLimit
    assignments := ← query.assignments
    comments := query.comments }

/-- A line with a list, unless the list is empty. -/
def listLine (label : String) : List String → List String
  | [] => []
  | items => ["  " ++ label ++ ": " ++ String.intercalate ", " items]

def lines (findings : Findings) : List String :=
  let facts := findings.facts
  let aliases := facts.tableAliases.entries.mergeSort fun first second => decide (first.1 ≤ second.1)
  ["  type: " ++ findings.kind.name]
    ++ listLine "tables" facts.tables
    ++ listLine "table aliases" (aliases.map fun (name, table) => name ++ " -> " ++ table)
    ++ listLine "columns" facts.columns
    ++ facts.columnsBySection.flatMap (fun (sec, columns) => listLine ("columns[" ++ sec.name ++ "]") columns)
    ++ listLine "column aliases" facts.aliasNames
    ++ listLine "with" facts.withQueries.keys
    ++ listLine "subqueries" facts.subqueries.keys
    ++ findings.rowLimit.toList.map (fun rows => s!"  limit: {rows.limit} offset: {rows.skipped}")
    ++ listLine "values" (findings.assignments.map fun (column, value) => column ++ "=" ++ value.write)
    ++ listLine "comments" findings.comments

end Findings

/-- Workers that share the inputs of a function, and gather what it makes of each of them. -/
structure Workers where
  gather : {α β : Type} → (α → β) → List α → List β

namespace Workers

/-- From this number of inputs on they are shared. -/
def threshold : Nat := 8

/-- One worker, who takes the inputs in turn. -/
def one : Workers := ⟨List.map⟩

end Workers

namespace Report

def ofStatement (limits : Limits) (source : Option String) (sql : String) : Report :=
  ⟨source, sql, Findings.ofQuery (Query.ofText sql limits)⟩

def isOk (report : Report) : Bool := report.outcome.isOk

def lines (report : Report) : List String :=
  (report.source.toList.map fun path => "-- " ++ path)
    ++ [String.ofList (Text.trim report.sql.toList)]
    ++ match report.outcome with
      | .ok findings => findings.lines
      | .error error => ["  error: " ++ error.message]

/-- The text of a report, every line with its end. -/
def write (report : Report) : String := String.join (report.lines.map (· ++ "\n"))

/-- One report for each statement of a script. -/
def ofScript (limits : Limits) (source : Option String) (script : List Char) : List Report :=
  (splitStatements script).map fun sql => ofStatement limits source (String.ofList sql)

def ofFile (limits : Limits) (tree : FileTree) (path : String) : Except Error (List Report) :=
  (tree.readText path).map (ofScript limits (some path))

/-- The reports of all files in order. At the first file that has an error it ends with this error. -/
def ofFilesInTurn (limits : Limits) (tree : FileTree) (paths : List String) : Except Error (List Report) :=
  paths.foldlM (fun reports path => do return reports ++ (← ofFile limits tree path)) []

/-- The reports of files that workers share. They are done with all files before an error counts. -/
def ofFilesShared (workers : Workers) (limits : Limits) (tree : FileTree) (paths : List String) :
    Except Error (List Report) :=
  (workers.gather (ofFile limits tree) paths).foldlM (fun reports result => do return reports ++ (← result)) []

def ofFilesWith (workers : Workers) (limits : Limits) (tree : FileTree) (paths : List String) :
    Except Error (List Report) :=
  if Workers.threshold ≤ paths.length then ofFilesShared workers limits tree paths else ofFilesInTurn limits tree paths

def ofFiles (limits : Limits) (tree : FileTree) (paths : List String) : Except Error (List Report) :=
  ofFilesWith .one limits tree paths

/-- The reports of statements without a file. -/
def ofQueriesWith (workers : Workers) (limits : Limits) (queries : List String) : List Report :=
  if Workers.threshold ≤ queries.length then workers.gather (ofStatement limits none) queries
  else queries.map (ofStatement limits none)

def ofQueries (limits : Limits) (queries : List String) : List Report := ofQueriesWith .one limits queries

/-- The reports of files and of the SQL files in directories. -/
def ofPaths (limits : Limits) (tree : FileTree) (paths : List String) : Except Error (List Report) :=
  if paths = [] then .error .nothingToAnalyze else ofFiles limits tree (tree.expand paths)

end Report

end QueryFacts

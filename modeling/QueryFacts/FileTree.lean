import QueryFacts.Error
import QueryFacts.Path
import QueryFacts.Text.Encoding

/-! The files that statements are read from. -/

namespace QueryFacts

/-- Directories and files by the names on the way from the root to them. -/
structure FileTree where
  workingDirectory : List String := []
  directories : List (List String) := [[]]
  files : List (List String × List UInt8) := []

namespace FileTree

/-- What a path leads to. -/
inductive Entry where
  | directory (names : List String)
  | file (content : List UInt8)

/-- Adds a directory and all directories on the way to it. -/
def addDirectory (tree : FileTree) (path : String) : FileTree :=
  let names := Path.resolve tree.workingDirectory path
  { tree with directories := tree.directories ++ (List.range (names.length + 1)).map names.take }

/-- Adds a file in place of one of the same name, and all directories on the way to it. -/
def addFile (tree : FileTree) (path : String) (content : List UInt8) : FileTree :=
  let names := Path.resolve tree.workingDirectory path
  { tree with
    directories := tree.directories ++ (List.range names.length).map names.take
    files := tree.files.filter (·.1 != names) ++ [(names, content)] }

def ofFiles (files : List (String × List UInt8)) : FileTree :=
  files.foldl (fun tree (path, content) => tree.addFile path content) {}

def entry (tree : FileTree) (names : List String) : Except ReadFault Entry :=
  if tree.directories.contains names then .ok (.directory names)
  else match tree.files.lookup names with
    | some content => .ok (.file content)
    | none => .error .missing

/-- Only directories can be entered. -/
def Entry.follow (tree : FileTree) : Entry → List String → Except ReadFault Entry
  | entry, [] => .ok entry
  | .directory names, part :: parts => do follow tree (← tree.entry (Path.enter names part)) parts
  | .file _, _ :: _ => .error .notDirectory

/-- A path that goes on behind a file, even by a slash alone, leads nowhere. -/
def find (tree : FileTree) (path : String) : Except ReadFault Entry :=
  if path = "" then .error .missing
  else (Entry.directory (Path.start tree.workingDirectory path)).follow tree (Path.parts path)

def isDirectory (tree : FileTree) (path : String) : Bool :=
  match tree.find path with
  | .ok (.directory _) => true
  | _ => false

/-- The bytes of a file. -/
def read (tree : FileTree) (path : String) : Except ReadFault (List UInt8) := do
  match ← tree.find path with
  | .file content => return content
  | .directory _ => throw .directory

/-- The text of a file. -/
def readText (tree : FileTree) (path : String) : Except Error (List Char) :=
  match tree.read path with
  | .error fault => .error (.unreadableFile path fault)
  | .ok content =>
    match Text.decode? content with
    | some text => .ok text
    | none => .error (.invalidEncoding path)

/-- The names below a directory of each SQL file in it. -/
def sqlNamesBelow (tree : FileTree) (directory : List String) : List (List String) :=
  tree.files.filterMap fun (names, _) =>
    let below := names.drop directory.length
    if directory.isPrefixOf names && below.getLast?.any Path.isSqlName then some below else none

/-- The SQL files at or below a path, in order. -/
def sqlFiles (tree : FileTree) (root : String) : List String :=
  match tree.find root with
  | .ok (.directory names) => ((tree.sqlNamesBelow names).mergeSort Path.precedes).map (·.foldl Path.join root)
  | .ok (.file _) => if (Path.parts root).getLast?.any Path.isSqlName then [root] else []
  | .error _ => []

/-- Replaces each directory by the SQL files in it. -/
def expand (tree : FileTree) (paths : List String) : List String :=
  paths.flatMap fun path => if tree.isDirectory path then tree.sqlFiles path else [path]

end FileTree

end QueryFacts

import QueryFacts.CommandLine

/-! The program: it loads the files that its arguments name, runs, and prints. -/

namespace QueryFacts.FileTree

/-- Adds a file, or a directory without what is in it. -/
def loadEntry (tree : FileTree) (entry : IO.FS.DirEntry) : IO FileTree := do
  let path := entry.path
  if ← path.isDir then return tree.addDirectory path.toString
  else if ← path.pathExists then return tree.addFile path.toString (← IO.FS.readBinFile path).toList
  else return tree

/-- Adds a file, or a directory with everything in it. -/
partial def load (tree : FileTree) (entry : IO.FS.DirEntry) : IO FileTree := do
  let tree ← tree.loadEntry entry
  if ← entry.path.isDir then (← entry.path.readDir).foldlM load tree else return tree

/-- Adds what a path leads to, and what it leads through. -/
def loadPath (tree : FileTree) (path : String) : IO FileTree := do
  let parts := Path.parts path
  let ways := (List.range parts.length).map fun count => String.intercalate "/" (parts.take count)
  let tree ← ways.foldlM (fun tree way => tree.loadEntry ⟨".", way⟩) tree
  tree.load ⟨".", path⟩

/-- The files that the arguments name, as seen from the working directory. -/
def ofArguments (arguments : List String) : IO FileTree := do
  let here := Path.resolve [] (← IO.currentDir).toString
  let tree := ({ workingDirectory := here } : FileTree).addDirectory "."
  match Command.ofArguments? arguments with
  | some (.analyze options) => options.paths.foldlM loadPath tree
  | _ => return tree

end QueryFacts.FileTree

def main (arguments : List String) : IO UInt32 := do
  let outcome := QueryFacts.run (← QueryFacts.FileTree.ofArguments arguments) arguments
  IO.print outcome.stdout
  IO.eprint outcome.stderr
  return outcome.code.toUInt32

/-! Paths of files, written with slashes between their parts. -/

namespace QueryFacts.Path

/-- The texts between the slashes of a path. -/
def splitAtSlashes : List Char → List (List Char)
  | [] => [[]]
  | c :: rest =>
    if c = '/' then [] :: splitAtSlashes rest
    else match splitAtSlashes rest with
      | [] => [[c]]
      | part :: parts => (c :: part) :: parts

def parts (path : String) : List String := (splitAtSlashes path.toList).map String.ofList

/-- Where a path starts: a slash in front leads to the root. -/
def start (workingDirectory : List String) (path : String) : List String :=
  if path.toList.head? = some '/' then [] else workingDirectory

/-- Where a part of a path leads from a directory, which is given by the names on the
way to it. Nothing is above the root. -/
def enter (directory : List String) (part : String) : List String :=
  if part = "" ∨ part = "." then directory
  else if part = ".." then directory.dropLast
  else directory ++ [part]

/-- The names on the way from the root to a path. -/
def resolve (workingDirectory : List String) (path : String) : List String :=
  (parts path).foldl enter (start workingDirectory path)

/-- The path of a name below a path. -/
def join (path name : String) : String :=
  if path.toList.getLast? = some '/' then path ++ name else path ++ "/" ++ name

/-- The text after the last dot of a name, unless that is its only dot and comes first. -/
def extension? (name : String) : Option (List Char) :=
  let letters := name.toList.reverse
  match letters.dropWhile (· ≠ '.') with
  | [] => none
  | [_] => none
  | _ :: _ => some (letters.takeWhile (· ≠ '.')).reverse

/-- Files with the extension `sql`, in any case, hold statements. -/
def isSqlName (name : String) : Bool := (extension? name).any fun letters => letters.map Char.toLower == "sql".toList

/-- Part by part, each by its code points. -/
def precedes : List String → List String → Bool
  | [], _ => true
  | _ :: _, [] => false
  | first :: firsts, second :: seconds => if first = second then precedes firsts seconds else first < second

end QueryFacts.Path

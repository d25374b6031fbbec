import QueryFacts.Report

/-! The command line: what the arguments ask for, and what the program then prints. -/

namespace QueryFacts

structure AnalyzeOptions where
  query : Option String := none
  paths : List String := []
  verbose : Bool := false
  maxTokens : Option Nat := none
  maxNestingDepth : Option Nat := none
  maxRecursionDepth : Option Nat := none
  deriving DecidableEq

/-- The options that take a value. -/
inductive ValueOption where
  | query
  | maxTokens
  | maxNestingDepth
  | maxRecursionDepth
  deriving DecidableEq

inductive Command where
  | version
  | analyze (options : AnalyzeOptions)
  | fingerprint (sql : String)
  | tables (sql : String)
  | columns (sql : String)
  deriving DecidableEq

/-- How a run ends, and what it prints. -/
structure Outcome where
  code : Nat
  stdout : String := ""
  stderr : String := ""
  deriving DecidableEq

namespace AnalyzeOptions

def limits (options : AnalyzeOptions) : Limits :=
  let standard : Limits := {}
  ⟨options.maxTokens.getD standard.maxTokens, options.maxNestingDepth.getD standard.maxNestingDepth,
    options.maxRecursionDepth.getD standard.maxRecursionDepth⟩

/-- A number of at most 64 bits, perhaps after a plus sign. -/
def number? (text : String) : Option Nat :=
  let digits := match text.toList with
    | '+' :: rest => rest
    | letters => letters
  (Decimal.natOf? digits).filter (· < UInt64.size)

/-- Sets an option that is not set yet. -/
def setNew {α : Type} (old new : Option α) : Option (Option α) := if old.isSome || new.isNone then none else some new

/-- Gives an option its value. -/
def set (options : AnalyzeOptions) (value : String) : ValueOption → Option AnalyzeOptions
  | .query => (setNew options.query (some value)).map ({ options with query := · })
  | .maxTokens => (setNew options.maxTokens (number? value)).map ({ options with maxTokens := · })
  | .maxNestingDepth =>
    (setNew options.maxNestingDepth (number? value)).map ({ options with maxNestingDepth := · })
  | .maxRecursionDepth =>
    (setNew options.maxRecursionDepth (number? value)).map ({ options with maxRecursionDepth := · })

def setVerbose (options : AnalyzeOptions) : Option AnalyzeOptions :=
  if options.verbose then none else some { options with verbose := true }

def addPath (options : AnalyzeOptions) (path : String) : Option AnalyzeOptions :=
  if path = "" then none else some { options with paths := options.paths ++ [path] }

/-- What one argument says: an option still without its value, or all there is to it. -/
inductive Step where
  | needsValue (options : AnalyzeOptions) (option : ValueOption)
  | done (options : AnalyzeOptions)

def longName? : String → Option ValueOption
  | "query" => some .query
  | "max-tokens" => some .maxTokens
  | "max-nesting-depth" => some .maxNestingDepth
  | "max-recursion-depth" => some .maxRecursionDepth
  | _ => none

/-- An argument after two hyphens. -/
def long? (options : AnalyzeOptions) (text : List Char) : Option Step :=
  let name := String.ofList (text.takeWhile (· ≠ '='))
  match text.dropWhile (· ≠ '=') with
  | _ :: value => (longName? name).bind fun option => (options.set (String.ofList value) option).map .done
  | [] => if name = "verbose" then options.setVerbose.map .done else (longName? name).map (.needsValue options)

/-- The letters after one hyphen. What follows `q` is its value, perhaps after an equals sign. -/
def short? (options : AnalyzeOptions) : List Char → Option Step
  | [] => some (.done options)
  | 'v' :: rest => options.setVerbose.bind (short? · rest)
  | ['q'] => some (.needsValue options .query)
  | 'q' :: '=' :: value => (options.set (String.ofList value) .query).map .done
  | 'q' :: value => (options.set (String.ofList value) .query).map .done
  | _ => none

/-- Other arguments are values; a single hyphen is one of them. -/
def isOption (argument : String) : Bool := argument.toList.head? == some '-' && argument != "-"

/-- An argument that is an option. -/
def option? (options : AnalyzeOptions) (argument : String) : Option Step :=
  match argument.toList.drop 1 with
  | '-' :: name => long? options name
  | letters => short? options letters

/-- Reads arguments into the options. `waiting` is an option that needs a value, and
after `--` every argument is a path. -/
def read (options : AnalyzeOptions) (onlyPaths : Bool) (waiting : Option ValueOption) :
    List String → Option AnalyzeOptions
  | [] => if waiting.isSome then none else some options
  | argument :: rest =>
    match waiting with
    | some option =>
      if isOption argument then none else (options.set argument option).bind (read · onlyPaths none rest)
    | none =>
      if onlyPaths || !isOption argument then (options.addPath argument).bind (read · onlyPaths none rest)
      else if argument = "--" then read options true none rest
      else match options.option? argument with
        | none => none
        | some (.needsValue options option) => read options onlyPaths (some option) rest
        | some (.done options) => read options onlyPaths none rest

/-- A query and paths exclude each other. -/
def ofArguments? (arguments : List String) : Option AnalyzeOptions :=
  (read {} false none arguments).filter fun options => options.query.isNone || options.paths.isEmpty

end AnalyzeOptions

namespace Command

/-- The only argument of a command that takes one text. -/
def text? (arguments : List String) : Option String :=
  let plain := arguments.takeWhile (· != "--")
  match plain ++ (arguments.drop plain.length).drop 1 with
  | [text] => if plain.any AnalyzeOptions.isOption then none else some text
  | _ => none

/-- What the arguments ask for; `none` when they are not understood. -/
def ofArguments? : List String → Option Command
  | [] => none
  | name :: arguments =>
    if name = "--version" ∨ "-V".toList.isPrefixOf name.toList then some version
    else if name = "analyze" then (AnalyzeOptions.ofArguments? arguments).map analyze
    else if name = "generalize" then (text? arguments).map fingerprint
    else if name = "tables" then (text? arguments).map tables
    else if name = "columns" then (text? arguments).map columns
    else none

end Command

namespace Outcome

def ofLines (lines : List String) : Outcome := ⟨0, String.join (lines.map (· ++ "\n")), ""⟩

/-- The lines about the reason of an error, for those that have one. -/
def cause : Error → String
  | .unreadableFile _ fault => "\nCaused by:\n    " ++ fault.message ++ "\n"
  | _ => ""

def ofError (printed : List String) (error : Error) : Outcome where
  code := 1
  stdout := String.join (printed.map (· ++ "\n"))
  stderr := "Error: " ++ error.message ++ "\n" ++ cause error

def ofResult (result : Except Error (List String)) : Outcome :=
  match result with
  | .ok lines => ofLines lines
  | .error error => ofError [] error

/-- The run failed because the arguments are not understood. -/
def usage : Outcome := ⟨2, "", "error: unexpected arguments\n"⟩

end Outcome

/-- Prints every report and an empty line after it. -/
def runAnalyze (tree : FileTree) (options : AnalyzeOptions) : Outcome :=
  let told := fun line => if options.verbose then [line] else []
  match options.query with
  | some script =>
    let reports := Report.ofQueries options.limits ((splitStatements script.toList).map String.ofList)
    .ofLines (told s!"Analyzing {reports.length} statements" ++ reports.map Report.write)
  | none =>
    if options.paths = [] then .ofError [] .nothingToAnalyze
    else
      let files := tree.expand options.paths
      let found := told s!"Found {files.length} SQL files"
      match Report.ofFiles options.limits tree files with
      | .error error => .ofError found error
      | .ok reports =>
        let failed := reports.countP (!·.isOk)
        .ofLines (found ++ told s!"Analyzed {reports.length} statements ({failed} failed)" ++ reports.map Report.write)

def Command.run (tree : FileTree) : Command → Outcome
  | version => .ofLines ["sqlmeta 0.1.0"]
  | analyze options => runAnalyze tree options
  | fingerprint sql => .ofLines [(Query.ofText sql {}).fingerprint]
  | tables sql => .ofResult ((Query.ofText sql {}).facts.map (·.tables))
  | columns sql => .ofResult ((Query.ofText sql {}).facts.map (·.columns))

/-- A run of the program with its arguments on the files that it can see. -/
def run (tree : FileTree) (arguments : List String) : Outcome :=
  match Command.ofArguments? arguments with
  | some command => command.run tree
  | none => .usage

end QueryFacts

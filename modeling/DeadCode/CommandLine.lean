import DeadCode.Project.Findings
import DeadCode.Project.Load
import DeadCode.Report.Format

/-! # The command line

The arguments of the program are read from left to right into a `Command`; the first wrong argument
ends the reading. An option takes its value from the same argument (`--path=a`, `-pa`, `-p=a`) or
from the next one, which must then not look like an option. Short flags can be combined, and each
flag and each option with a single value is given at most once. `Command.run` does what a command
says over a tree of files. -/

namespace DeadCode

/-- What is to be analyzed, and how it is reported. -/
structure AnalyzeOptions where
  /-- The root of the project. -/
  path : Path := ⟨"."⟩
  /-- The format of the report. -/
  format : Format := .standard
  /-- Entry files beside those of the manifest. -/
  entries : List Path := []
  /-- Whether dependencies for development are checked too. -/
  includeDevelopment : Bool := false
  /-- The file the graph of the project is drawn to. -/
  graph : Option Path := none
deriving DecidableEq, Inhabited, Repr

/-- What the program is asked to do. -/
inductive Command where
  /-- Say what the program is. -/
  | overview
  /-- Say which version it is, in answer to a flag. -/
  | versionFlag
  /-- Say which version it is. -/
  | version
  /-- Explain the arguments. -/
  | help
  /-- Analyze a project. -/
  | analyze (options : AnalyzeOptions)
deriving DecidableEq, Inhabited, Repr

namespace CommandLine

/-! ## Options -/

/-- The options of the program. -/
inductive Opt where
  | help
  | version
  | verbose
  | path
  | format
  | entry
  | includeDev
  | graph
deriving DecidableEq, Inhabited, Repr

namespace Opt

/-- The long name of an option. -/
def long : Opt → String
  | help => "help"
  | version => "version"
  | verbose => "verbose"
  | path => "path"
  | format => "format"
  | entry => "entry"
  | includeDev => "include-dev"
  | graph => "graph"

/-- The short name of an option. -/
def short? : Opt → Option Char
  | help => some 'h'
  | version => some 'V'
  | verbose => some 'v'
  | path => some 'p'
  | format => some 'f'
  | entry => some 'e'
  | includeDev | graph => none

/-- Whether an option takes a value. -/
def takesValue : Opt → Bool
  | path | format | entry | graph => true
  | help | version | verbose | includeDev => false

/-- Whether an option may be given more than once. -/
def isRepeatable (option : Opt) : Bool :=
  option = entry

/-- The options that stand before a command. -/
def global : List Opt := [help, version, verbose]

/-- The options of the analysis. -/
def ofAnalyze : List Opt := [help, verbose, path, format, entry, includeDev, graph]

/-- The options of the command that tells the version. -/
def ofVersion : List Opt := [help, verbose]

end Opt

/-- The arguments ask for something the program does not do. -/
inductive Misuse where
  /-- An option that is not known here. -/
  | unknownOption
  /-- An option without the value it takes. -/
  | missingValue
  /-- A flag with a value. -/
  | unneededValue
  /-- An option with a value that is none of its values. -/
  | invalidValue
  /-- An option that is given again. -/
  | repeated
  /-- An argument that is no option and no command. -/
  | unexpected
deriving DecidableEq, Inhabited, Repr

/-- Why the reading of arguments ends early. -/
inductive Stop where
  /-- An argument is wrong. -/
  | misuse (misuse : Misuse)
  /-- An argument asks for an answer of its own, whatever comes after it. -/
  | answer (command : Command)
deriving DecidableEq, Inhabited, Repr

/-- The options read so far, with their values; a flag has an empty value. -/
abbrev Given := List (Opt × String)

/-- Whether a text is a value of an option. -/
def isValue (option : Opt) (value : String) : Bool :=
  match option with
  | .path | .entry | .graph => !value.isEmpty
  | .format => (Format.ofName? value).isSome
  | .help | .version | .verbose | .includeDev => true

/-- Takes one more option. -/
def give (given : Given) (option : Opt) (value : String) : Except Stop Given :=
  match option with
  | .help => .error (.answer .help)
  | .version => .error (.answer .versionFlag)
  | option =>
    if given.any (·.1 = option) && !option.isRepeatable then .error (.misuse .repeated)
    else if !isValue option value then .error (.misuse .invalidValue)
    else .ok (given ++ [(option, value)])

/-! ## Arguments -/

/-- Whether an argument looks like an option: a dash with something after it. -/
def looksLikeOption (argument : String) : Bool :=
  match argument.toList with
  | '-' :: _ :: _ => true
  | _ => false

/-- A value without the sign that may set it off from a short option. -/
def dropSign : List Char → List Char
  | '=' :: value => value
  | value => value

/-- Reads short options that stand together. The answer names the option that still wants its value
from the next argument, if there is one. -/
def readShort (known : List Opt) (given : Given) :
    List Char → Except Stop (Given × Option Opt)
  | [] => .ok (given, none)
  | c :: rest =>
    match known.find? (·.short? = some c) with
    | none => .error (.misuse .unknownOption)
    | some option =>
      if option.takesValue then
        if rest.isEmpty then .ok (given, some option)
        else (give given option (String.ofList (dropSign rest))).map (·, none)
      else
        match give given option "" with
        | .error stop => .error stop
        | .ok given => readShort known given rest

/-- Reads a long option. The answer names the option if it still wants its value from the next
argument. -/
def readLong (known : List Opt) (given : Given) (argument : List Char) :
    Except Stop (Given × Option Opt) :=
  let name := String.ofList (argument.takeWhile (· ≠ '='))
  match known.find? (·.long = name), argument.dropWhile (· ≠ '=') with
  | none, _ => .error (.misuse .unknownOption)
  | some option, [] =>
    if option.takesValue then .ok (given, some option) else (give given option "").map (·, none)
  | some option, _ :: value =>
    if option.takesValue then (give given option (String.ofList value)).map (·, none)
    else .error (.misuse .unneededValue)

/-- Reads an argument that looks like an option. -/
def readOption (known : List Opt) (given : Given) (argument : String) :
    Except Stop (Given × Option Opt) :=
  match argument.toList with
  | '-' :: '-' :: name => readLong known given name
  | _ :: names => readShort known given names
  | [] => .error (.misuse .unexpected)

/-- Reads options up to the first argument that is none, and gives the arguments from there on. Two
dashes end the options, and nothing may follow them. -/
def readOptions (known : List Opt) (given : Given) :
    List String → Except Stop (Given × List String)
  | [] => .ok (given, [])
  | argument :: rest =>
    if argument = "--" then
      if rest.isEmpty then .ok (given, []) else .error (.misuse .unexpected)
    else if looksLikeOption argument then
      match readOption known given argument with
      | .error stop => .error stop
      | .ok (given, none) => readOptions known given rest
      | .ok (given, some option) =>
        match rest with
        | [] => .error (.misuse .missingValue)
        | value :: rest =>
          if looksLikeOption value then .error (.misuse .missingValue)
          else
            match give given option value with
            | .error stop => .error stop
            | .ok given => readOptions known given rest
    else .ok (given, argument :: rest)

/-- Reads arguments that are options only. -/
def readOptionsOnly (known : List Opt) (arguments : List String) : Except Stop Given :=
  match readOptions known [] arguments with
  | .error stop => .error stop
  | .ok (given, []) => .ok given
  | .ok (_, _ :: _) => .error (.misuse .unexpected)

/-! ## Commands -/

/-- The first value of an option. -/
def value? (given : Given) (option : Opt) : Option String :=
  given.lookup option

/-- What the options of the analysis say. -/
def analyzeOptions (given : Given) : AnalyzeOptions :=
  { path := ((value? given .path).map Path.mk).getD ⟨"."⟩
    format := ((value? given .format).bind Format.ofName?).getD .standard
    entries := (given.filter (·.1 = .entry)).map fun (_, value) => ⟨value⟩
    includeDevelopment := (value? given .includeDev).isSome
    graph := (value? given .graph).map Path.mk }

/-- Reads the names of commands to be explained: at most one. -/
def readHelp : List String → Except Stop Command
  | [] | ["analyze"] | ["version"] | ["help"] => .ok .help
  | _ => .error (.misuse .unexpected)

/-- Reads a command with its arguments. -/
def readCommand : List String → Except Stop Command
  | [] => .ok .overview
  | "analyze" :: arguments =>
    (readOptionsOnly Opt.ofAnalyze arguments).map fun given => .analyze (analyzeOptions given)
  | "version" :: arguments => (readOptionsOnly Opt.ofVersion arguments).map fun _ => .version
  | "help" :: arguments => readHelp arguments
  | _ => .error (.misuse .unexpected)

/-- The command that the arguments of the program spell. -/
def parse (arguments : List String) : Except Misuse Command :=
  let command := do
    let (_, rest) ← readOptions Opt.global [] arguments
    readCommand rest
  match command with
  | .ok command => .ok command
  | .error (.answer command) => .ok command
  | .error (.misuse misuse) => .error misuse

end CommandLine

/-! ## Running -/

/-- What a run of the program leaves behind. -/
structure Outcome where
  /-- The exit code: one for a failed analysis, two for wrong arguments. -/
  exitCode : Nat := 0
  /-- The text on standard output. -/
  output : String := ""
  /-- The file that was written, with its text. -/
  written : Option (Path × String) := none
  /-- The files afterwards. -/
  files : FileTree
deriving Inhabited, Repr

namespace Command

/-- The lines that say what the program is. -/
def overviewLines : List String :=
  ["deadscope - Dead code analyzer for JavaScript projects",
    "Run 'deadscope analyze' to analyze the current project",
    "Run 'deadscope --help' for more information"]

/-- The lines that explain the arguments. -/
def helpLines : List String :=
  ["Usage: deadscope [-v] [analyze [-p PATH] [-f FORMAT] [-e ENTRY] [--include-dev] " ++
      "[--graph FILE] | version | help]"]

/-- The number of the version. -/
def versionNumber : String := "0.1.0"

/-- The settings of an analysis started in a directory. -/
def config (directory : Path) (options : AnalyzeOptions) : Config :=
  { root := directory.join options.path, entries := options.entries
    includeDevelopment := options.includeDevelopment }

/-- Analyzes a project. The graph is drawn before the report is written, and a graph that cannot be
written ends the run. -/
def runAnalyze (files : FileTree) (directory : Path) (options : AnalyzeOptions) : Outcome :=
  match Project.load files (config directory options) with
  | .error _ => { exitCode := 1, files }
  | .ok project =>
    let output := project.report.render options.format
    match options.graph with
    | none => { output, files }
    | some graph =>
      let path := directory.join graph
      let drawing := project.toDot
      match files.write? path drawing with
      | none => { exitCode := 1, files }
      | some files => { output, written := some (path, drawing), files }

/-- Does what a command says, in a directory of a tree of files. -/
def run (files : FileTree) (directory : Path) : Command → Outcome
  | overview => { output := unlines overviewLines, files }
  | versionFlag => { output := unlines ["deadscope " ++ versionNumber], files }
  | version => { output := unlines ["deadscope v" ++ versionNumber], files }
  | help => { output := unlines helpLines, files }
  | analyze options => runAnalyze files directory options

end Command

/-- Runs the program with its arguments, in a directory of a tree of files. -/
def CommandLine.run (files : FileTree) (directory : Path) (arguments : List String) : Outcome :=
  match parse arguments with
  | .error _ => { exitCode := 2, files }
  | .ok command => command.run files directory

end DeadCode

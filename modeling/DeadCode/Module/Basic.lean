import DeadCode.Syntax.Fault
import DeadCode.Resolution.Callable
import DeadCode.Module.Import
import DeadCode.Module.Export

/-! # Analyzed files

A `SourceModule` is the model of one source file: its statement graph, its scopes, and the names it
imports and exports. -/

namespace DeadCode

/-- The reasons why a file cannot be analyzed. -/
inductive AnalysisError where
  /-- The bytes of the file are no text. -/
  | notText
  /-- There is no syntax tree for the file. -/
  | noTree (path : Path)
  /-- The file has a syntax error, the first one at that line. -/
  | malformed (path : Path) (line : Nat)
  /-- No language has that extension. -/
  | unsupported (extension : String)
  /-- The statement graph cannot be built. -/
  | build (path : Path) (error : BuildError)
deriving DecidableEq, Inhabited, Repr

/-- The wording of an analysis error. -/
def AnalysisError.message : AnalysisError → String
  | notText => "Failed to read file: stream did not contain valid UTF-8"
  | noTree path => "Failed to parse file: " ++ path.text
  | malformed path line => s!"Syntax error in {path.text} at line {line}"
  | unsupported extension => "Unsupported file type: " ++ extension
  | build path error => "Failed to build statement graph for " ++ path.text ++ ": " ++ error.message

/-- The language of a file, or the error that its extension stands for none. -/
def Language.ofPath (path : Path) : Except AnalysisError Language :=
  match ofPath? path with
  | some language => .ok language
  | none => .error (.unsupported (path.extension?.getD ""))

/-- The model of one source file. -/
structure SourceModule where
  /-- The path of the file as given. -/
  path : Path
  /-- The path importers know the file by. -/
  canonical : Path
  /-- The language of the file. -/
  language : Language
  /-- The statements and their relations. -/
  graph : StatementGraph
  /-- The scopes and their bindings. -/
  scopes : ScopeTree
  /-- What the file imports. -/
  imports : List Import
  /-- What the file exports. -/
  exports : List Export
deriving Inhabited, Repr

namespace SourceModule

/-- The global binding whose declaration produces an export, unless it is imported. -/
def exportedBinding? (scopes : ScopeTree) (e : Export) : Option Binding :=
  (scopes.bindings ScopeTree.globalId).find? fun binding =>
    binding.declaration = some e.producer && binding.origin.isNone

/-- The scopes with the binding behind an export marked by the exported name. -/
def markExport (scopes : ScopeTree) (e : Export) : ScopeTree :=
  match exportedBinding? scopes e with
  | none => scopes
  | some binding =>
    scopes.updateLocal ScopeTree.globalId binding.name ({ · with exportName := some e.name })

/-- The model of a file with the given syntax tree and ambient names. -/
def ofTree (path : Path) (source : String) (language : Language) (root : Node)
    (ambient : List String) : Except AnalysisError SourceModule :=
  match StatementGraph.build? path source root ambient with
  | .error error => .error (.build path error)
  | .ok (graph, scopes) =>
    let canonical := path.canonical
    let exports := Export.ofFile source canonical root graph
    .ok
      { path, canonical, language, graph
        scopes := exports.foldl markExport scopes
        imports := Import.ofFile path source root graph
        exports }

/-- The model of a file whose language is known; a tree in error has none. -/
def analyze (path : Path) (source : String) (language : Language) (tree : Option Node)
    (ambient : List String) : Except AnalysisError SourceModule :=
  match tree with
  | none => .error (.noTree path)
  | some root =>
    if root.flags.hasError then .error (.malformed path (root.faultLine source))
    else ofTree path source language root ambient

/-- The export of a name. -/
def export? (m : SourceModule) (name : String) : Option Export :=
  m.exports.find? (·.name = name)

/-- The imports that a statement carries. -/
def importsAt (m : SourceModule) (vertex : VertexId) : List Import :=
  m.imports.filter (·.vertex = some vertex)

/-- Whether a canonical path names the file, directly or as the `index` file of a directory. -/
def matchesPath (m : SourceModule) (path : Path) : Bool :=
  m.canonical.Same path
    || (m.canonical.fileName? = some "index" && m.canonical.parent?.any (·.Same path))

end SourceModule

end DeadCode

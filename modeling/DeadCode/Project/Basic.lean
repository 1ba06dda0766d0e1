import DeadCode.Graph.Dot
import DeadCode.Project.Links

/-! # Projects

A `Project` holds the models of the files that could be analyzed, the failures of the others, the
manifest, and the links between the files. It is made from sources (`Project.ofSources`) and kept in
step with them (`Project.update`); its links are always those of its files. -/

namespace DeadCode

/-- The settings of an analysis. -/
structure Config where
  /-- The root directory of the project. -/
  root : Path := ⟨"."⟩
  /-- The extensions of the files that are analyzed. -/
  extensions : List String := Language.extensions
  /-- The names of the directories that are not searched for files. -/
  ignoredDirectories : List String :=
    ["node_modules", ".git", "dist", "build", ".next", "coverage", ".turbo"]
  /-- Entry files beside those of the manifest, relative to the root. -/
  entries : List Path := []
  /-- The names the host environment provides. -/
  ambient : List String := ScopeTree.defaultAmbient
  /-- Whether dependencies for development are checked too. -/
  includeDevelopment : Bool := false
deriving DecidableEq, Inhabited, Repr

/-- A source file before its analysis. -/
structure SourceText where
  /-- The path of the file. -/
  path : Path
  /-- The text of the file; none if its bytes are no text. -/
  text : Option String
  /-- The syntax tree of the text, if there is one. -/
  tree : Option Node
deriving Inhabited, Repr

/-- A file that could not be analyzed. -/
structure Failure where
  /-- The path of the file. -/
  path : Path
  /-- What went wrong. -/
  error : AnalysisError
deriving DecidableEq, Inhabited, Repr

/-- The model of a source file. The extension of its path decides the language. -/
def SourceText.analyze (ambient : List String) (source : SourceText) :
    Except AnalysisError SourceModule := do
  let language ← Language.ofPath source.path
  match source.text with
  | none => throw .notText
  | some text => SourceModule.analyze source.path text language source.tree ambient

/-- The analyzed files of a project and what connects them. -/
structure Project where
  /-- The settings. -/
  config : Config
  /-- The manifest, if there is one. -/
  manifest : Option Manifest
  /-- The analyzed files by index. -/
  files : List SourceModule
  /-- The files that could not be analyzed. -/
  failures : List Failure
  /-- What connects the files. -/
  links : Links
deriving Inhabited, Repr

namespace Project

/-- The dependencies that some file should import. -/
def checkedDependencies (manifest : Option Manifest) (config : Config) : List Dependency :=
  (manifest.map (·.checked config.includeDevelopment)).getD []

/-- The project of the given files, linked. -/
def ofFiles (config : Config) (manifest : Option Manifest) (files : List SourceModule)
    (failures : List Failure) : Project :=
  { config, manifest, files, failures
    links := .ofFiles files (checkedDependencies manifest config) }

/-- The project of the given sources. -/
def ofSources (config : Config) (manifest : Option Manifest) (sources : List SourceText) :
    Project :=
  let outcomes := sources.map fun source => (source.path, source.analyze config.ambient)
  let files := outcomes.filterMap fun (_, outcome) => outcome.toOption
  let failures := outcomes.filterMap fun (path, outcome) =>
    match outcome with
    | .ok _ => none
    | .error error => some { path, error }
  ofFiles config manifest files failures

/-- The file of an index. -/
def file? (project : Project) (id : FileId) : Option SourceModule :=
  project.files[id]?

/-- The index of the file with a path. -/
def fileId? (project : Project) (path : Path) : Option FileId :=
  project.files.findIdx? (·.path.Same path)

/-! ## Keeping in step with the sources -/

/-- A list of files with one put in the place of the first file of its path, or at the end. -/
def putFile (file : SourceModule) : List SourceModule → List SourceModule
  | [] => [file]
  | f :: rest => if f.path.Same file.path then file :: rest else f :: putFile file rest

/-- The project after a change of one source, and the error if the source cannot be analyzed. The
file then leaves the project and joins the failures. -/
def update (project : Project) (source : SourceText) : Project × Option AnalysisError :=
  let failures := project.failures.filter (¬ ·.path.Same source.path)
  match source.analyze project.config.ambient with
  | .ok file =>
    (ofFiles project.config project.manifest (putFile file project.files) failures, none)
  | .error error =>
    let files := project.files.eraseP (·.path.Same source.path)
    let failures := failures ++ [{ path := source.path, error }]
    (ofFiles project.config project.manifest files failures, some error)

/-! ## Entry files -/

/-- The declared entries of a project: those of the manifest, then those of the settings. -/
def declaredEntries (project : Project) : List Path :=
  ((project.manifest.map Manifest.entryPoints).getD []).map Path.mk ++ project.config.entries

/-- The file that a declared entry names: the first that its canonical path matches. -/
def entryFile? (project : Project) (entry : Path) : Option FileId :=
  let path := (project.config.root.join entry).canonical
  project.files.findIdx? (·.matchesPath path)

/-- The `index` files of the root directory. -/
def indexFiles (project : Project) : List FileId :=
  let index := project.config.root.child "index"
  (List.range project.files.length).filter fun id =>
    (project.file? id).any (·.canonical.Same index)

/-- The files the analysis starts from: those of the declared entries, each once, or if there are
none the `index` files of the root directory. -/
def entryFiles (project : Project) : List FileId :=
  match distinct (project.declaredEntries.filterMap project.entryFile?) with
  | [] => project.indexFiles
  | entries => entries

/-! ## Drawing -/

/-- A drawing of all files and of the edges between them. -/
def toDot (project : Project) : String :=
  Dot.project (project.files.map (·.graph)) <| project.links.edges.map fun e =>
    { sourceFile := e.sourceFile, sourceVertex := e.sourceVertex, targetFile := e.targetFile
      targetVertex := e.targetVertex, label := e.relation.render }

end Project

end DeadCode

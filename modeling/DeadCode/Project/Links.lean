import DeadCode.Distinct
import DeadCode.Manifest.Basic
import DeadCode.Module.Basic

/-! # Links between the files of a project

Each import of each file either names a package, or leads to a file of the project, or stays
unresolved (`Resolution.ofImport`). From these resolutions come the `Links` of a project: which
statement loads which file, the import and export edges between statements of different files, the
imports left unresolved, and the dependencies that no file imports. -/

namespace DeadCode

/-- The index of a file in its project. -/
abbrev FileId := Nat

/-- An edge between statements of two files. -/
structure CrossEdge where
  /-- The file of the statement that refers. -/
  sourceFile : FileId
  /-- The statement that refers. -/
  sourceVertex : VertexId
  /-- The file of the statement referred to. -/
  targetFile : FileId
  /-- The statement referred to. -/
  targetVertex : VertexId
  /-- How they are related. -/
  relation : Relation
deriving DecidableEq, Inhabited, Repr

/-- A statement that loads another file. -/
structure ModuleLink where
  /-- The file of the statement. -/
  importer : FileId
  /-- The statement. -/
  vertex : VertexId
  /-- The file it loads. -/
  target : FileId
deriving DecidableEq, Inhabited, Repr

/-- The reasons why an import leads to no statement of another file. -/
inductive UnresolvedReason where
  /-- No file of the project has the imported path. -/
  | missingModule
  /-- The file has no export of the imported name. -/
  | missingExport
  /-- No statement carries the import. -/
  | detached
deriving DecidableEq, Inhabited, Repr

/-- The label of a reason. -/
def UnresolvedReason.label : UnresolvedReason → String
  | missingModule => "missing-module"
  | missingExport => "missing-export"
  | detached => "detached"

/-- An import that is left unresolved. -/
structure UnresolvedImport where
  /-- The importing file. -/
  file : FileId
  /-- The path of the importing file. -/
  path : Path
  /-- The module specifier as written. -/
  source : String
  /-- What the import takes from the module. -/
  imported : ImportedName
  /-- The line of the import. -/
  line : Nat
  /-- Why it is unresolved. -/
  reason : UnresolvedReason
deriving DecidableEq, Inhabited, Repr

/-! ## From an import to a file -/

/-- The files known under a canonical path. -/
def filesAt (files : List SourceModule) (path : Path) : List (SourceModule × FileId) :=
  files.zipIdx.filter fun (file, _) => file.canonical.Same path

/-- The files an import of a canonical path may mean: the files of that path, or if there are none
the `index` files of that directory. -/
def candidates (files : List SourceModule) (path : Path) : List (SourceModule × FileId) :=
  match filesAt files path with
  | [] => filesAt files (path.child "index")
  | found => found

/-- How far down the list of extensions a file stands. -/
def extensionRank (path : Path) : Nat :=
  match path.extension? with
  | some extension => Language.extensions.idxOf extension
  | none => Language.extensions.length

/-- The better ranked of two candidates; of equals the first. -/
def betterRanked (a b : SourceModule × FileId) : SourceModule × FileId :=
  if extensionRank b.1.path < extensionRank a.1.path then b else a

/-- The candidate with the best ranked extension; of equals the first. -/
def bestRanked : List (SourceModule × FileId) → Option (SourceModule × FileId)
  | [] => none
  | candidate :: rest => some (rest.foldl betterRanked candidate)

/-- Whether a candidate has the extension that a specifier spells out. -/
def hasWrittenExtension (specifier : String) (candidate : SourceModule × FileId) : Bool :=
  match (Path.mk specifier).extension? with
  | some extension => candidate.1.path.extension? = some extension
  | none => false

/-- The candidate an import means: the first that has the extension of the specifier, or else the
one with the best ranked extension. -/
def chooseTarget (specifier : String) (candidates : List (SourceModule × FileId)) :
    Option (SourceModule × FileId) :=
  (candidates.find? (hasWrittenExtension specifier)).or (bestRanked candidates)

/-- An export matched by an import: the name it goes by and the exporting statement. -/
structure Match where
  /-- The name under which the export is imported. -/
  name : String
  /-- The exporting statement. -/
  vertex : VertexId
deriving DecidableEq, Inhabited, Repr

/-- All exports of a file, each under its own name. -/
def allExports (target : SourceModule) : List Match :=
  target.exports.map fun e => { name := e.name, vertex := e.vertex }

/-- The exports of a file that an import takes. An import of a whole module takes all of them, one
for side effects none. A name takes the first export of that name; without one, a default import
takes all exports of a file that exports by assignment, and any other import the exports that stand
for everything another module exports. -/
def matchExports (imported : ImportedName) (target : SourceModule) : List Match :=
  match imported.exportName? with
  | none => if imported = .whole then allExports target else []
  | some name =>
    match target.export? name with
    | some e => [{ name := e.name, vertex := e.vertex }]
    | none =>
      if name = "default" && target.exports.any (·.commonJs) then allExports target
      else (target.exports.filter Export.isStar).map fun e => { name, vertex := e.vertex }

/-- What an import leads to. -/
inductive Resolution where
  /-- A package. -/
  | package (name : String)
  /-- No file. -/
  | missing
  /-- A file, but from no statement. -/
  | detached
  /-- A file, from a statement, with the exports the import takes. -/
  | loaded (vertex : VertexId) (target : FileId) (matched : List Match)
deriving DecidableEq, Inhabited, Repr

/-- What an import leads to among the files of a project. -/
def Resolution.ofImport (files : List SourceModule) (i : Import) : Resolution :=
  match i.target with
  | .package name _ => .package name
  | .relative path =>
    match chooseTarget i.source (candidates files path) with
    | none => .missing
    | some (target, id) =>
      match i.vertex with
      | none => .detached
      | some vertex => .loaded vertex id (matchExports i.imported target)

/-! ## The links of a project -/

/-- An import in its file. -/
structure Occurrence where
  /-- The importing file. -/
  file : FileId
  /-- The path of the importing file. -/
  path : Path
  /-- The import itself. -/
  item : Import
deriving DecidableEq, Inhabited, Repr

/-- The imports of all files, file by file. -/
def occurrences (files : List SourceModule) : List Occurrence :=
  files.zipIdx.flatMap fun (file, id) =>
    file.imports.map fun i => { file := id, path := file.path, item := i }

namespace Occurrence

/-- What the import leads to. -/
def resolution (files : List SourceModule) (o : Occurrence) : Resolution :=
  .ofImport files o.item

/-- The import as unresolved for a reason. -/
def unresolvedFor (o : Occurrence) (reason : UnresolvedReason) : UnresolvedImport :=
  { file := o.file, path := o.path, source := o.item.source, imported := o.item.imported
    line := o.item.line, reason }

/-- The reason why the import is unresolved, if it is. -/
def unresolvedReason? (files : List SourceModule) (o : Occurrence) : Option UnresolvedReason :=
  match o.resolution files with
  | .package _ => none
  | .missing => some .missingModule
  | .detached => some .detached
  | .loaded _ _ matched =>
    if matched.isEmpty && o.item.imported.exportName?.isSome then some .missingExport else none

/-- The import as an unresolved one, if it is. -/
def unresolved? (files : List SourceModule) (o : Occurrence) : Option UnresolvedImport :=
  (o.unresolvedReason? files).map o.unresolvedFor

/-- The link to the file the import loads. -/
def moduleLink? (files : List SourceModule) (o : Occurrence) : Option ModuleLink :=
  match o.resolution files with
  | .loaded vertex target _ => some { importer := o.file, vertex, target }
  | _ => none

/-- The edge from an importing statement to an exporting one, and the edge back. -/
def edgePair (importer : FileId) (vertex : VertexId) (target : FileId) (m : Match) :
    List CrossEdge :=
  [{ sourceFile := importer, sourceVertex := vertex, targetFile := target, targetVertex := m.vertex
     relation := .named .imports m.name },
   { sourceFile := target, sourceVertex := m.vertex, targetFile := importer, targetVertex := vertex
     relation := .named .exports m.name }]

/-- The edges between the import and the exports it takes. -/
def edges (files : List SourceModule) (o : Occurrence) : List CrossEdge :=
  match o.resolution files with
  | .loaded vertex target matched => matched.flatMap (edgePair o.file vertex target)
  | _ => []

end Occurrence

/-- What connects the files of a project. -/
structure Links where
  /-- The edges between statements of two files. -/
  edges : List CrossEdge := []
  /-- Which statements load which files. -/
  modules : List ModuleLink := []
  /-- The imports left unresolved. -/
  unresolved : List UnresolvedImport := []
  /-- The checked dependencies that no file imports. -/
  unusedDependencies : List Dependency := []
deriving DecidableEq, Inhabited, Repr

/-- The names of the packages that files import. -/
def importedPackages (files : List SourceModule) : List String :=
  files.flatMap fun file => file.imports.filterMap Import.packageName?

namespace Links

/-- The links between files, and the given dependencies that none of the files imports. -/
def ofFiles (files : List SourceModule) (dependencies : List Dependency) : Links :=
  let imports := occurrences files
  let packages := importedPackages files
  { edges := distinct (imports.flatMap (·.edges files))
    modules := distinct (imports.filterMap (·.moduleLink? files))
    unresolved := imports.filterMap (·.unresolved? files)
    unusedDependencies := dependencies.filter (·.name ∉ packages) }

/-- The edges of a kind. -/
def edgesOf (links : Links) (kind : RelationKind) : List CrossEdge :=
  links.edges.filter (·.relation.kind = kind)

/-- The edges that leave a statement. -/
def outgoing (links : Links) (file : FileId) (vertex : VertexId) : List CrossEdge :=
  links.edges.filter fun e => e.sourceFile = file && e.sourceVertex = vertex

/-- The edges that arrive at a statement. -/
def incoming (links : Links) (file : FileId) (vertex : VertexId) : List CrossEdge :=
  links.edges.filter fun e => e.targetFile = file && e.targetVertex = vertex

/-- The files a statement loads. -/
def loaded (links : Links) (file : FileId) (vertex : VertexId) : List FileId :=
  (links.modules.filter fun m => m.importer = file && m.vertex = vertex).map (·.target)

end Links

end DeadCode

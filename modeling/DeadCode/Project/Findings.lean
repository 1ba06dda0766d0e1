import DeadCode.Project.Reach
import DeadCode.Report.Basic

/-! # Findings

The report of a project (`Project.report`) follows from what its entry files reach. A declaration of
a reached file is dead if nothing outside it uses it. A use by a statement that only exports counts
if the export is live: somebody imports it, or its file is an entry. -/

namespace DeadCode

/-- The name an import asks for as it is reported. -/
def ImportedName.reportName : ImportedName → String
  | .defaultExport => "default"
  | .whole | .sideEffect => "*"
  | .named name => name

/-- An unresolved import as it is reported. -/
def UnresolvedFinding.ofImport (i : UnresolvedImport) : UnresolvedFinding :=
  { path := i.path, line := i.line, source := i.source, imported := i.imported.reportName
    reason := i.reason }

/-- A failure as it is reported. -/
def FailureNote.ofFailure (f : Failure) : FailureNote :=
  { path := f.path, message := f.error.message }

namespace SourceModule

/-- Whether the only purpose of a statement is to run other modules: it carries imports, and none of
them binds a name. -/
def onlyRuns (m : SourceModule) (vertex : VertexId) : Bool :=
  !(m.importsAt vertex).isEmpty && (m.importsAt vertex).all (·.localName.isNone)

/-- The names that a statement binds in the scope it stands in and in those around it, sorted.
Parameters live in the scope of their function and are not among them. -/
def boundNames (m : SourceModule) (id : VertexId) (vertex : Vertex) : List String :=
  let bindings := (m.scopes.chain vertex.scope).flatMap m.scopes.bindings
  let names := (bindings.filter (·.declaration = some id)).map (·.name)
  sortBy (fun a b => a ≤ b) (distinct names)

end SourceModule

namespace Project

/-- Whether some file imports an export. -/
def isImported (project : Project) (file : FileId) (e : Export) : Bool :=
  (project.links.incoming file e.vertex).any (·.relation.kind = .imports)

/-- Whether what a statement exports is live: the file is an entry, or some file imports an export
of the statement. -/
def isLiveExport (project : Project) (entries : List FileId) (file : FileId) (m : SourceModule)
    (statement : VertexId) : Bool :=
  file ∈ entries || (m.exports.filter (·.vertex = statement)).any (project.isImported file)

/-- Whether an edge is a use of a statement: from a statement that is not inside it, and that does
not only export something dead. -/
def isUse (project : Project) (entries : List FileId) (file : FileId) (m : SourceModule)
    (vertex : Vertex) (e : Edge) : Bool :=
  e.relation.kind.isUsage && (m.graph.vertex? e.source).any fun user =>
    !vertex.span.contains user.span
      && (!user.isTerminal || project.isLiveExport entries file m e.source)

/-- Why a declaration is dead, if it is. -/
def deadReason? (project : Project) (entries : List FileId) (file : FileId) (m : SourceModule)
    (id : VertexId) (vertex : Vertex) : Option DeadReason :=
  if m.onlyRuns id then none
  else if (m.graph.incoming id).any (project.isUse entries file m vertex) then none
  else
    match m.exports.filter (·.producer = id) with
    | [] => if (m.importsAt id).isEmpty then some .unusedDeclaration else some .unusedImport
    | exports =>
      if file ∈ entries || exports.any (project.isImported file) then none else some .unusedExport

/-- The dead declarations of a file. -/
def deadStatementsOf (project : Project) (entries : List FileId) (file : FileId) :
    List DeadStatement :=
  match project.file? file with
  | none => []
  | some m =>
    m.graph.vertices.toList.zipIdx.filterMap fun (vertex, id) =>
      if vertex.isDeclaration then
        (project.deadReason? entries file m id vertex).map fun reason =>
          { path := m.path, location := vertex.location, kind := vertex.key.kind.name
            names := m.boundNames id vertex, reason }
      else none

/-- The order of reported statements: by path, then by location. -/
def statementOrder (a b : DeadStatement) : Bool :=
  ((a.path.order b.path).then (compare a.location b.location)).isLE

/-- The dead declarations of the reached files, sorted. -/
def deadStatements (project : Project) (entries : List FileId) (reach : Reach) :
    List DeadStatement :=
  sortBy statementOrder (reach.files.flatMap (project.deadStatementsOf entries))

/-- The files that are not reached, sorted by path. -/
def deadFiles (project : Project) (reach : Reach) : List Path :=
  let dead := (List.range project.files.length).filter (· ∉ reach.files)
  sortBy (fun a b => (a.order b).isLE) (dead.filterMap fun id => (project.file? id).map (·.path))

/-- The checked dependencies that no reached statement imports. -/
def deadDependencies (project : Project) (reach : Reach) : List Dependency :=
  (checkedDependencies project.manifest project.config).filter (·.name ∉ reach.packages)

/-- The findings of a project. -/
def report (project : Project) : Report :=
  let entries := project.entryFiles
  let reach := project.reach entries
  { projectName := project.manifest.bind (·.name)
    entries := entries.filterMap fun id => (project.file? id).map (·.path)
    totalFiles := project.files.length
    reachedFiles := reach.files.length
    deadFiles := project.deadFiles reach
    deadDependencies := project.deadDependencies reach
    deadStatements := project.deadStatements entries reach
    unresolvedImports := project.links.unresolved.map .ofImport
    failures := project.failures.map .ofFailure }

end Project

end DeadCode

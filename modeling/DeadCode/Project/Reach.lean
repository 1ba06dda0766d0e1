import DeadCode.Project.Basic

/-! # What a project reaches

Loading a file runs its top-level statements, and a statement leads to the statements it refers to,
to the files it loads, and to the exports it imports. `Project.reach` walks from some files along
these steps and keeps the files in the order in which they were first loaded. Edges from an export
back to its importers are not followed, so a used file does not make its users used. -/

namespace DeadCode

/-- A statement of a project. -/
structure Site where
  /-- The file of the statement. -/
  file : FileId
  /-- The statement. -/
  vertex : VertexId
deriving DecidableEq, Inhabited, Repr

/-- What was reached. -/
structure Reach where
  /-- The reached files, in the order in which they were first loaded. -/
  files : List FileId := []
  /-- The reached statements, the last reached first. -/
  sites : List Site := []
  /-- The packages that reached statements import, the last reached first. -/
  packages : List String := []
deriving DecidableEq, Inhabited, Repr

namespace Project

/-- The statements that run when a file is loaded. -/
def loadSites (project : Project) (file : FileId) : List Site :=
  match project.file? file with
  | none => []
  | some m => m.graph.topLevel.map fun vertex => { file, vertex }

/-- The statements a statement refers to in its own file. -/
def localTargets (project : Project) (site : Site) : List Site :=
  match project.file? site.file with
  | none => []
  | some m =>
    ((m.graph.outgoing site.vertex).filter (·.relation.kind ≠ .exports)).map fun e =>
      { file := site.file, vertex := e.target }

/-- The packages a statement imports. -/
def packagesAt (project : Project) (site : Site) : List String :=
  match project.file? site.file with
  | none => []
  | some m => (m.importsAt site.vertex).filterMap Import.packageName?

/-- The files a statement loads. -/
def loadedAt (project : Project) (site : Site) : List FileId :=
  match project.file? site.file with
  | none => []
  | some _ => project.links.loaded site.file site.vertex

/-- The exports a statement imports from other files. -/
def importTargets (project : Project) (site : Site) : List Site :=
  match project.file? site.file with
  | none => []
  | some _ =>
    ((project.links.outgoing site.file site.vertex).filter (·.relation.kind = .imports)).map
      fun e => { file := e.targetFile, vertex := e.targetVertex }

/-- The state of a walk: what was reached, and the statements still to be visited, the next one
first. -/
structure Walk where
  /-- What was reached so far. -/
  reach : Reach := {}
  /-- The statements still to be visited. -/
  pending : List Site := []
deriving DecidableEq, Inhabited, Repr

namespace Walk

/-- Statements put on top of the pending ones, the last of them on top. -/
def push (walk : Walk) (sites : List Site) : Walk :=
  { walk with pending := sites.reverse ++ walk.pending }

/-- Loads a file, unless it is loaded. -/
def load (project : Project) (walk : Walk) (file : FileId) : Walk :=
  if file ∈ walk.reach.files then walk
  else
    { walk with reach.files := walk.reach.files ++ [file] }.push (project.loadSites file)

/-- Visits a statement. -/
def visit (project : Project) (walk : Walk) (site : Site) : Walk :=
  let reach := { walk.reach with
    sites := site :: walk.reach.sites
    packages := (project.packagesAt site).reverse ++ walk.reach.packages }
  let walk := { walk with reach }.push (project.localTargets site)
  ((project.loadedAt site).foldl (load project) walk).push (project.importTargets site)

/-- Visits the pending statements that were not visited before, and those they lead to, at most
`limit` of them. -/
def run (project : Project) : (limit : Nat) → Walk → Reach
  | 0, walk => walk.reach
  | limit + 1, walk =>
    match walk.pending.dropWhile (· ∈ walk.reach.sites) with
    | [] => walk.reach
    | site :: pending => run project limit (visit project { walk with pending } site)

end Walk

/-- A bound on the number of statements a walk can visit: every statement that is ever pending is
one of a file, or the target of an edge. -/
def siteBound (project : Project) : Nat :=
  project.files.foldr (fun m bound => m.graph.vertices.size + m.graph.edges.size + bound)
    project.links.edges.length

/-- What is reached from some files. -/
def reach (project : Project) (entries : List FileId) : Reach :=
  (entries.foldl (Walk.load project) {}).run project (project.siteBound + 1)

end Project

end DeadCode

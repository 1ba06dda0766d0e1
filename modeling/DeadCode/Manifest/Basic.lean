import DeadCode.Distinct
import DeadCode.Sorting

/-! # Package manifests

A `Manifest` says what a project is called, where it starts, and which packages it depends on, in
four groups. A group of dependencies has each name once. `Manifest.dependencies` lists all of them,
and `Manifest.checked` those that some file of the project is expected to import. -/

namespace DeadCode

/-- The groups of dependencies. -/
inductive DependencyKind where
  /-- Needed to run the project. -/
  | production
  /-- Needed to work on the project only. -/
  | development
  /-- Provided by whoever uses the project. -/
  | peer
  /-- Used if available. -/
  | optional
deriving DecidableEq, Inhabited, Repr

namespace DependencyKind

/-- The short label of a group, by which dependencies of one name are ordered. -/
def label : DependencyKind → String
  | production => "prod"
  | development => "dev"
  | peer => "peer"
  | optional => "optional"

/-- The full name of a group. -/
def name : DependencyKind → String
  | production => "production"
  | development => "development"
  | peer => "peer"
  | optional => "optional"

/-- Whether the files of a project are expected to import the dependencies of a group. -/
def expectsImport : DependencyKind → Bool
  | production | optional => true
  | development | peer => false

end DependencyKind

/-- A package a project depends on. -/
structure Dependency where
  /-- The name of the package. -/
  name : String
  /-- The versions that are accepted. -/
  version : String
  /-- The group it is declared in. -/
  kind : DependencyKind
deriving DecidableEq, Inhabited, Repr

namespace Dependency

/-- A dependency with its version and group. -/
def render (dependency : Dependency) : String :=
  dependency.name ++ "@" ++ dependency.version ++ " (" ++ dependency.kind.name ++ ")"

/-- The order of lists of dependencies: by name, and by label where names agree. -/
def precedes (a b : Dependency) : Bool :=
  a.name < b.name || (a.name = b.name && a.kind.label ≤ b.kind.label)

end Dependency

/-- A table of texts by name. -/
structure NameTable where
  /-- The names with their texts. -/
  entries : List (String × String)
  /-- Each name is there once. -/
  nodup : (entries.map Prod.fst).Nodup := by simp
deriving DecidableEq, Repr

namespace NameTable

/-- The table without entries. -/
def empty : NameTable :=
  ⟨[], List.nodup_nil⟩

instance : Inhabited NameTable := ⟨empty⟩

/-- Entries with one more, in the place of an older entry of that name. -/
def insertInto (entries : List (String × String)) (name text : String) : List (String × String) :=
  match entries with
  | [] => [(name, text)]
  | entry :: rest =>
    if entry.1 = name then (name, text) :: rest else entry :: insertInto rest name text

variable {entries : List (String × String)} {name text : String}

/-- One more entry adds its name. -/
theorem mem_names_insertInto {other : String} :
    other ∈ (insertInto entries name text).map Prod.fst ↔
      other = name ∨ other ∈ entries.map Prod.fst := by
  induction entries with
  | nil => simp [insertInto]
  | cons entry rest ih =>
    unfold insertInto
    split
    · next heq => simp [heq]
    · rw [List.map_cons, List.mem_cons, ih, List.map_cons, List.mem_cons]
      exact or_left_comm

/-- One more entry leaves each name there once. -/
theorem nodup_insertInto (h : (entries.map Prod.fst).Nodup) :
    ((insertInto entries name text).map Prod.fst).Nodup := by
  induction entries with
  | nil => simp [insertInto]
  | cons entry rest ih =>
    obtain ⟨hnew, hrest⟩ := List.nodup_cons.1 h
    unfold insertInto
    split
    · next heq => exact List.nodup_cons.2 ⟨heq ▸ hnew, hrest⟩
    · next hne =>
      exact List.nodup_cons.2 ⟨fun hmem => (mem_names_insertInto.1 hmem).elim hne hnew, ih hrest⟩

/-- The table with one more entry, in the place of an older entry of that name. -/
def insert (table : NameTable) (name text : String) : NameTable :=
  ⟨insertInto table.entries name text, nodup_insertInto table.nodup⟩

/-- The entries of the table in the order of their names. -/
def sorted (table : NameTable) : List (String × String) :=
  sortBy (fun a b => a.1 ≤ b.1) table.entries

end NameTable

/-- The executables of a package: one, or several by the names of the commands. -/
inductive Executables where
  | single (path : String)
  | commands (paths : NameTable)
deriving DecidableEq, Inhabited, Repr

/-- The paths of the executables, in the order of the names of the commands. -/
def Executables.paths : Executables → List String
  | single path => [path]
  | commands paths => paths.sorted.map Prod.snd

/-- What is known of a package. -/
structure Manifest where
  /-- The name of the package. -/
  name : Option String := none
  /-- The version of the package. -/
  version : Option String := none
  /-- The file others load. -/
  main : Option String := none
  /-- The file others load as a module. -/
  moduleEntry : Option String := none
  /-- The executables. -/
  executables : Option Executables := none
  /-- The packages needed to run. -/
  production : Option NameTable := none
  /-- The packages needed for development. -/
  development : Option NameTable := none
  /-- The packages provided by the user. -/
  peer : Option NameTable := none
  /-- The packages used if available. -/
  optional : Option NameTable := none
deriving DecidableEq, Inhabited, Repr

namespace Manifest

/-- The files a package is entered by, each once: the main file, the module, the executables. -/
def entryPoints (manifest : Manifest) : List String :=
  distinct <| manifest.main.toList ++ manifest.moduleEntry.toList
    ++ (manifest.executables.map Executables.paths).getD []

/-- The dependencies of one group. -/
def group (manifest : Manifest) (kind : DependencyKind) : List Dependency :=
  let table := match kind with
    | .production => manifest.production
    | .development => manifest.development
    | .peer => manifest.peer
    | .optional => manifest.optional
  (table.getD .empty).entries.map fun (name, version) => { name, version, kind }

/-- All dependencies, ordered by name and group. -/
def dependencies (manifest : Manifest) : List Dependency :=
  sortBy Dependency.precedes
    ([DependencyKind.production, .development, .peer, .optional].flatMap manifest.group)

/-- The number of dependencies. -/
def dependencyCount (manifest : Manifest) : Nat :=
  manifest.dependencies.length

/-- Whether there are dependencies. -/
def hasDependencies (manifest : Manifest) : Bool :=
  0 < manifest.dependencyCount

/-- Whether the dependencies of a group are checked. -/
def checks (includeDevelopment : Bool) (kind : DependencyKind) : Bool :=
  kind.expectsImport || (includeDevelopment && kind = .development)

/-- The dependencies that some file should import, ordered by name and each name once: production
and optional dependencies, and on demand those for development. Of several groups that declare a
name the one with the first label counts. -/
def checked (manifest : Manifest) (includeDevelopment : Bool) : List Dependency :=
  distinctBy Dependency.name
    (manifest.dependencies.filter fun d => checks includeDevelopment d.kind)

end Manifest

end DeadCode

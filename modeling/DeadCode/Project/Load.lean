import DeadCode.FileTree
import DeadCode.Manifest.Reader
import DeadCode.Project.Basic

/-! # Loading a project

A project is loaded from a tree of files: the manifest is the file `package.json` in the root, and
the sources are the files below the root that have one of the wanted extensions and lie in no
ignored directory. -/

namespace DeadCode

/-- The reasons why a project cannot be loaded. -/
inductive LoadError where
  /-- The root does not exist. -/
  | unreadableRoot
  /-- The manifest cannot be read. -/
  | manifest (error : ManifestError)
deriving DecidableEq, Inhabited, Repr

namespace Config

/-- Whether a file is a source by its extension. -/
def wants (config : Config) (place : Place) : Bool :=
  (Place.path place).extension?.any (· ∈ config.extensions)

/-- Whether a place lies below a root and in no ignored directory on the way from there. -/
def discovers (config : Config) (root place : Place) : Bool :=
  root.isPrefixOf place
    && (place.drop root.length).dropLast.all (· ∉ config.ignoredDirectories)
    && config.wants place

end Config

namespace FileTree

/-- The manifest in a directory, if there is one. -/
def manifestIn (tree : FileTree) (root : Place) : Except ManifestError (Option Manifest) :=
  match tree.file? (root ++ ["package.json"]) with
  | none => .ok none
  | some { text := none, .. } => .error .notText
  | some { text := some text, .. } => some <$> Manifest.parse text

/-- The sources of a project, sorted by path. -/
def sources (tree : FileTree) (config : Config) (root : Place) : List SourceText :=
  let found := tree.files.filter fun (place, _) => config.discovers root place
  let sources := found.map fun (place, content) =>
    ({ path := Place.path place, text := content.text, tree := content.tree } : SourceText)
  sortBy (fun a b => (a.path.order b.path).isLE) sources

end FileTree

/-- The project in a tree of files. -/
def Project.load (tree : FileTree) (config : Config) : Except LoadError Project :=
  match tree.resolve? config.root with
  | none => .error .unreadableRoot
  | some root =>
    match tree.manifestIn root with
    | .error error => .error (.manifest error)
    | .ok manifest =>
      .ok <| .ofSources { config with root := Place.path root } manifest (tree.sources config root)

end DeadCode

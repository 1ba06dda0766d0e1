import DeadCode.Language
import DeadCode.Syntax.Node

/-! # Trees of files

A `FileTree` is a snapshot of files and directories. A `Place` in it is the list of names that lead
there from the root. `FileTree.resolve?` follows a path name by name, and only a directory can be
passed on the way; `FileTree.write?` puts a file where its directory exists. -/

namespace DeadCode

/-- A place in a tree of files: the names that lead there from the root. -/
abbrev Place := List String

namespace Place

/-- The absolute path of a place. -/
def path (place : Place) : Path :=
  .ofComponents (.root :: place.map .normal)

/-- The place that an absolute path spells. -/
def ofPath (path : Path) : Place :=
  (Path.normalComponents path.components).filterMap fun component =>
    match component with
    | .normal name => some name
    | _ => none

end Place

/-- What a file holds. -/
structure FileContent where
  /-- The text of the file; none if its bytes are no text. -/
  text : Option String
  /-- The syntax tree of the text, if there is one. -/
  tree : Option Node := none
deriving Inhabited, Repr

/-- A snapshot of files and directories. -/
structure FileTree where
  /-- The files by place. -/
  files : List (Place × FileContent) := []
  /-- Directories beside those that hold files. -/
  directories : List Place := []
deriving Inhabited, Repr

namespace FileTree

/-- The file at a place. -/
def file? (tree : FileTree) (place : Place) : Option FileContent :=
  tree.files.lookup place

/-- Whether a place is a directory: the root, a listed directory, or on the way to a file. -/
def isDirectory (tree : FileTree) (place : Place) : Bool :=
  place.isEmpty || tree.directories.any place.isPrefixOf
    || tree.files.any fun (file, _) => place.isPrefixOf file && place ≠ file

/-- Whether there is a file or a directory at a place. -/
def exists? (tree : FileTree) (place : Place) : Bool :=
  (tree.file? place).isSome || tree.isDirectory place

/-- The place one piece of a path leads to from a directory. -/
def step? (tree : FileTree) (place : Place) (piece : List Char) : Option Place :=
  if tree.isDirectory place then
    match piece with
    | [] | ['.'] => some place
    | ['.', '.'] => some place.dropLast
    | name =>
      let next := place ++ [String.ofList name]
      if tree.exists? next then some next else none
  else none

/-- The place some pieces of a path lead to. -/
def follow? (tree : FileTree) (place : Place) (pieces : List (List Char)) : Option Place :=
  pieces.foldlM tree.step? place

/-- The place an absolute path leads to. -/
def resolve? (tree : FileTree) (path : Path) : Option Place :=
  if path.isAbsolute then tree.follow? [] (Path.segments path.text.toList) else none

/-- The tree with a file put at a place. -/
def put (tree : FileTree) (place : Place) (content : FileContent) : FileTree :=
  { tree with files := (tree.files.filter (·.1 ≠ place)) ++ [(place, content)] }

/-- The tree with a text written to the file that an absolute path names. The path has to end in a
name, and the directory has to exist. -/
def write? (tree : FileTree) (path : Path) (text : String) : Option FileTree := do
  let pieces := Path.segments path.text.toList
  let directory ← if path.isAbsolute then tree.follow? [] pieces.dropLast else none
  match ← pieces.getLast? with
  | [] | ['.'] | ['.', '.'] => none
  | name =>
    let place := directory ++ [String.ofList name]
    if tree.isDirectory directory && !tree.isDirectory place then
      some (tree.put place { text := some text })
    else none

end FileTree

end DeadCode

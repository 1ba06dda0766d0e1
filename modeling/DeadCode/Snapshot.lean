import DeadCode.FileTree
import DeadCode.Json.Reader
import DeadCode.Syntax.Encoded

/-! # Snapshots of files in JSON

A tree of files is read from a JSON object with an array `files` and an array `dirs` of directories.
A file has a `path`, a `source` and a `tree`, the syntax tree of its text; a file without a source
is one whose bytes are no text. Relative paths start at a given directory. -/

namespace DeadCode.FileTree

/-- The value of a field of a JSON object. -/
def field? (name : String) : Json → Option Json
  | .object fields => fields.lookup name
  | _ => none

/-- The place that a path spells from a directory. -/
def placeFrom (directory : Path) (path : String) : Place :=
  Place.ofPath (directory.join ⟨path⟩)

/-- The file that a JSON value spells, with its place. -/
def fileOfJson? (directory : Path) (value : Json) : Option (Place × FileContent) := do
  let path ← (field? "path" value).bind Json.string?
  let text := (field? "source" value).bind Json.string?
  let tree := (field? "tree" value).bind Node.ofJson?
  return (placeFrom directory path, { text, tree })

/-- The tree of files that a JSON value spells. -/
def ofJson? (directory : Path) (value : Json) : Option FileTree := do
  let files ← ((field? "files" value).bind Json.array?).getD [] |>.mapM (fileOfJson? directory)
  let directories ← ((field? "dirs" value).bind Json.array?).getD [] |>.mapM Json.string?
  return {
    files
    directories := Place.ofPath directory :: directories.map (placeFrom directory) }

/-- The tree of files that a JSON text spells. -/
def parse? (directory : Path) (text : String) : Option FileTree :=
  let characters := text.toList
  match (Json.Reader.value (characters.length + 1)).run characters with
  | .ok (value, _) => ofJson? directory value
  | .error _ => none

end DeadCode.FileTree

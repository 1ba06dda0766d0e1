/-! # File paths

A `Path` keeps the spelling it was given, and means the list of its `Path.components`: repeated and
trailing slashes vanish, and so does every `.` that does not lead a relative path. Two paths are the
same place in a project when their components agree (`Path.Same`), and paths are ordered by their
components, so `a/b.js` comes before `a.js`.

`Path.normalize` folds `.` and `..` away without asking any file system. -/

namespace DeadCode

/-- One step of a path. The order of the cases is the order in which paths sort. -/
inductive Component where
  /-- The root of an absolute path. -/
  | root
  /-- A `.` that leads a relative path. -/
  | current
  /-- A `..`. -/
  | parent
  /-- A named file or directory. -/
  | normal (name : String)
deriving DecidableEq, Inhabited, Repr, Ord

/-- The text of one component. -/
def Component.render : Component → String
  | root => "/"
  | current => "."
  | parent => ".."
  | normal name => name

/-- A path as it is spelled. -/
structure Path where
  /-- The spelling of the path. -/
  text : String
deriving DecidableEq, Inhabited, Repr

namespace Path

/-- The pieces of a text between its slashes. -/
def segments : List Char → List (List Char)
  | [] => [[]]
  | c :: rest =>
    if c = '/' then [] :: segments rest
    else
      match segments rest with
      | [] => [[c]]
      | piece :: pieces => (c :: piece) :: pieces

/-- The component an inner piece stands for; an empty piece and a `.` stand for none. -/
def component? : List Char → Option Component
  | [] => none
  | ['.'] => none
  | ['.', '.'] => some .parent
  | piece => some (.normal (String.ofList piece))

/-- The components that the pieces of a spelling stand for. -/
def componentsOf : List (List Char) → List Component
  | [] :: piece :: pieces => .root :: (piece :: pieces).filterMap component?
  | ['.'] :: pieces => .current :: pieces.filterMap component?
  | pieces => pieces.filterMap component?

/-- The components of a path. -/
def components (path : Path) : List Component :=
  componentsOf (segments path.text.toList)

/-- Two spellings of one place. -/
def Same (a b : Path) : Prop :=
  a.components = b.components

instance (a b : Path) : Decidable (a.Same b) :=
  inferInstanceAs (Decidable (a.components = b.components))

/-- The order of paths, component by component. -/
def order (a b : Path) : Ordering :=
  compare a.components b.components

/-- The plain spelling of a list of components. -/
def ofComponents : List Component → Path
  | .root :: rest => ⟨"/" ++ "/".intercalate (rest.map Component.render)⟩
  | components => ⟨"/".intercalate (components.map Component.render)⟩

/-- Whether a path starts at the root. -/
def isAbsolute (path : Path) : Bool :=
  path.text.toList.head? = some '/'

/-- The path reached by walking `other` from `base`; an absolute `other` stands alone. -/
def join (base other : Path) : Path :=
  if other.isAbsolute || base.text.isEmpty then other
  else if base.text.toList.getLast? = some '/' then ⟨base.text ++ other.text⟩
  else ⟨base.text ++ "/" ++ other.text⟩

/-- The path of a name inside a directory. -/
def child (base : Path) (name : String) : Path :=
  base.join ⟨name⟩

/-- The path without its last component, if that is not the root. -/
def parent? (path : Path) : Option Path :=
  match path.components.reverse with
  | [] | .root :: _ => none
  | _ :: rest => some (ofComponents rest.reverse)

/-- The name a path ends in, if it ends in one. -/
def fileName? (path : Path) : Option String :=
  match path.components.getLast? with
  | some (.normal name) => some name
  | _ => none

/-- A name cut at its last dot into stem and extension, unless the dot is missing or comes
first. -/
def splitExtension? (name : List Char) : Option (List Char × List Char) :=
  match name.reverse.dropWhile (· ≠ '.') with
  | _ :: stem@(_ :: _) => some (stem.reverse, (name.reverse.takeWhile (· ≠ '.')).reverse)
  | _ => none

/-- The extension of the name a path ends in. -/
def extension? (path : Path) : Option String := do
  let (_, extension) ← splitExtension? (← path.fileName?).toList
  return String.ofList extension

/-- One component folded onto the reversed components before it: `.` adds nothing, and `..` takes a
name away, stays at the root, and piles up where there is nothing to take away. -/
def fold (before : List Component) : Component → List Component
  | .current => before
  | .parent =>
    match before with
    | .normal _ :: rest => rest
    | .root :: _ => before
    | _ => .parent :: before
  | component => component :: before

/-- The components left after folding `.` and `..`. -/
def normalComponents (components : List Component) : List Component :=
  (components.foldl fold []).reverse

/-- The path with `.` and `..` folded away. -/
def normalize (path : Path) : Path :=
  ofComponents (normalComponents path.components)

end Path

end DeadCode

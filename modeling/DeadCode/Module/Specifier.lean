import DeadCode.Language

/-! # Module specifiers

An import names a module by a specifier: a path, relative to the importing file or absolute, or the
name of a package, which may be scoped (`@scope/name`), may lead into the package (`name/inner`) and
may be marked as built in (`node:name`). -/

namespace DeadCode

/-- What a module specifier points at. -/
inductive ImportTarget where
  /-- A package by its name; builtins are marked. -/
  | package (name : String) (builtin : Bool)
  /-- A file of the project by its canonical path. -/
  | relative (path : Path)
deriving DecidableEq, Inhabited, Repr

namespace Specifier

/-- Whether a specifier is a path. -/
def isPath (specifier : List Char) : Bool :=
  match specifier with
  | c :: _ => c = '.' || c = '/'
  | [] => false

/-- The mark of a specifier of a builtin. -/
def builtinMark : List Char := "node:".toList

/-- A specifier without the mark of a builtin. -/
def unmarked (specifier : List Char) : List Char :=
  if builtinMark.isPrefixOf specifier then specifier.drop builtinMark.length else specifier

/-- The name of the package a specifier without a mark leads to: what comes before the first slash,
and for a scoped package before the second. -/
def packageOf? (specifier : List Char) : Option (List Char) :=
  match Path.segments specifier with
  | [] | [] :: _ => none
  | first@('@' :: _) :: rest =>
    match rest with
    | [] | [] :: _ => none
    | second :: _ => some (first ++ '/' :: second)
  | first :: _ => some first

/-- The name of the package a specifier names, if it names one. -/
def packageName? (specifier : String) : Option String :=
  if isPath specifier.toList then none
  else (packageOf? (unmarked specifier.toList)).map String.ofList

/-- What a specifier written in a file of the directory `directory` points at. -/
def resolve? (directory : Path) (specifier : String) : Option ImportTarget :=
  if isPath specifier.toList then some (.relative (directory.join ⟨specifier⟩).canonical)
  else
    (packageName? specifier).map fun name =>
      .package name (builtinMark.isPrefixOf specifier.toList)

end Specifier

end DeadCode

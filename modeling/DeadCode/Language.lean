import DeadCode.Path

/-! # Source languages and canonical paths

The extension of a file decides the language it is written in, whatever its letter case. Importers
leave the extension out, so a file is known under its canonical path: the normalized path without a
source extension. -/

namespace DeadCode

/-- The lower case of a character as far as it matters to a comparison with words of ASCII letters:
beside the ASCII capitals only the Kelvin sign has an ASCII lower case. -/
def lowerChar (c : Char) : Char :=
  if c = '\u212a' then 'k' else c.toLower

/-- A word in lower case, for comparison with words of ASCII letters. -/
def lowercase (word : String) : String :=
  String.ofList (word.toList.map lowerChar)

/-- The languages the analysis covers. -/
inductive Language where
  | javaScript
  | jsx
  | typeScript
  | tsx
deriving DecidableEq, Inhabited, Repr

namespace Language

/-- The extensions of source files, most preferred first. -/
def extensions : List String :=
  ["js", "mjs", "cjs", "jsx", "ts", "mts", "cts", "tsx"]

/-- The language a file extension stands for, in any letter case. -/
def ofExtension? (extension : String) : Option Language :=
  match lowercase extension with
  | "js" | "mjs" | "cjs" => some .javaScript
  | "jsx" => some .jsx
  | "ts" | "mts" | "cts" => some .typeScript
  | "tsx" => some .tsx
  | _ => none

/-- The language of a file by the extension of its path. -/
def ofPath? (path : Path) : Option Language :=
  ofExtension? (path.extension?.getD "")

end Language

namespace Path

/-- The name left when a source extension is taken off. A stem of a single dot keeps the dot that
set the extension off, so that it still names something. -/
def stripName (name : String) : String :=
  match splitExtension? name.toList with
  | some (stem, extension) =>
    if Language.extensions.contains (lowercase (String.ofList extension)) then
      if stem = ['.'] then ".." else String.ofList stem
    else name
  | none => name

/-- A normalized path without its source extension; any other extension stays. -/
def stripExtension (path : Path) : Path :=
  match path.components.reverse with
  | .normal name :: rest => ofComponents (rest.reverse ++ [.normal (stripName name)])
  | _ => path

/-- The path under which importers know a file: normalized, without a source extension. -/
def canonical (path : Path) : Path :=
  path.normalize.stripExtension

end Path

end DeadCode

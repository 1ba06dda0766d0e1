import DeadCode.Json.Reader
import DeadCode.Manifest.Basic

/-! # Reading package manifests

A manifest is a JSON object with nine known fields, each given at most once, or an array of these
nine in their order. Other fields are skipped. `Manifest.parse` reads one from a text. -/

namespace DeadCode

open Json Json.Reader

/-- The reasons why a manifest cannot be read. -/
inductive ManifestError where
  /-- The bytes of the file are no text. -/
  | notText
  /-- The text is no manifest. -/
  | json (fault : Fault)
deriving DecidableEq, Inhabited, Repr

namespace Manifest

/-! ## The values of fields -/

/-- A text. -/
def textValue : Reader String := do
  match ← rest with
  | '"' :: more =>
    set more
    string true
  | _ => wrongShape

/-- A value of the given shape, or none where `null` stands. -/
def orNull {α : Type} (value : Reader α) : Reader (Option α) := do
  match ← rest with
  | 'n' :: _ =>
    expect "null".toList
    return none
  | _ => some <$> value

/-- The entries of a table that are left, with the closing bracket. -/
def tableRest : (limit : Nat) → (first : Bool) → NameTable → Reader NameTable
  | 0, _, _ => throw .malformed
  | limit + 1, first, table => do
    if ← hasField first then
      let name ← string true
      colon
      let text ← textValue
      tableRest limit false (table.insert name text)
    else
      expect ['\x7d']
      return table

/-- A table of texts by name. -/
def tableValue : Reader NameTable := do
  match ← rest with
  | '\x7b' :: more =>
    set more
    tableRest (more.length + 1) true .empty
  | _ => wrongShape

/-- A table of texts from the fields of an object. -/
def tableOfFields? (fields : List (String × Json)) : Option NameTable :=
  fields.foldlM (fun table (name, value) => return table.insert name (← value.string?)) .empty

/-- The executables that a JSON value stands for. -/
def executables? : Json → Option Executables
  | .string path => some (.single path)
  | .object fields => (tableOfFields? fields).map .commands
  | _ => none

/-- The executables: the value is read as a whole before its shape is looked at. -/
def executablesValue : Reader Executables := do
  match executables? (← value maxDepth) with
  | some executables => return executables
  | none => throw .mismatched

/-! ## Fields -/

/-- The known fields of a manifest, in their order. -/
inductive ManifestField where
  | name
  | version
  | main
  | moduleEntry
  | executables
  | production
  | development
  | peer
  | optional
deriving DecidableEq, Inhabited, Repr

namespace ManifestField

/-- All known fields, in their order. -/
def all : List ManifestField :=
  [name, version, main, moduleEntry, executables, production, development, peer, optional]

/-- The name a field has in a manifest. -/
def label : ManifestField → String
  | name => "name"
  | version => "version"
  | main => "main"
  | moduleEntry => "module"
  | executables => "bin"
  | production => "dependencies"
  | development => "devDependencies"
  | peer => "peerDependencies"
  | optional => "optionalDependencies"

/-- The known field of a name. -/
def ofLabel? (text : String) : Option ManifestField :=
  all.find? (·.label = text)

/-- Reads the value of a field into a manifest. -/
def readInto (manifest : Manifest) : ManifestField → Reader Manifest
  | name => return { manifest with name := ← orNull textValue }
  | version => return { manifest with version := ← orNull textValue }
  | main => return { manifest with main := ← orNull textValue }
  | moduleEntry => return { manifest with moduleEntry := ← orNull textValue }
  | executables => return { manifest with executables := ← orNull executablesValue }
  | production => return { manifest with production := ← orNull tableValue }
  | development => return { manifest with development := ← orNull tableValue }
  | peer => return { manifest with peer := ← orNull tableValue }
  | optional => return { manifest with optional := ← orNull tableValue }

end ManifestField

/-! ## Documents -/

/-- The fields of an object that are left, with the closing bracket; `seen` holds the known fields
so far. -/
def fieldsRest : (limit : Nat) → (first : Bool) → (seen : List ManifestField) → Manifest →
    Reader Manifest
  | 0, _, _, _ => throw .malformed
  | limit + 1, first, seen, manifest => do
    if ← hasField first then
      match ManifestField.ofLabel? (← string true) with
      | none =>
        colon
        skip
        fieldsRest limit false seen manifest
      | some field =>
        if field ∈ seen then throw .mismatched
        colon
        let manifest ← field.readInto manifest
        fieldsRest limit false (field :: seen) manifest
    else
      expect ['\x7d']
      return manifest

/-- The given fields as the items of an array. -/
def itemsRest (first : Bool) (manifest : Manifest) : List ManifestField → Reader Manifest
  | [] => return manifest
  | field :: fields => do
    if ← hasItem first then
      let manifest ← field.readInto manifest
      itemsRest false manifest fields
    else throw .mismatched

/-- A manifest as one JSON value. -/
def document : Reader Manifest := do
  match ← rest with
  | '\x7b' :: more =>
    set more
    fieldsRest (more.length + 1) true [] {}
  | '[' :: more =>
    set more
    let manifest ← itemsRest true {} ManifestField.all
    let _ ← rest
    expect [']']
    return manifest
  | _ => wrongShape

/-- The manifest a text holds. -/
def parse (text : String) : Except ManifestError Manifest :=
  match (do let manifest ← document; atEnd; return manifest : Reader Manifest).run text.toList with
  | .ok (manifest, _) => .ok manifest
  | .error fault => .error (.json fault)

end Manifest

end DeadCode

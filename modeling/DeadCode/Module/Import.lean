import DeadCode.Graph.Basic
import DeadCode.Syntax.Pattern
import DeadCode.Module.Specifier

/-! # Imports

The imports of a file are collected from its whole syntax tree, in the order of the text: `import`
statements, exports of names of another module, `require` calls in any place, and dynamic imports.
Each is tied to the statement that encloses it. -/

namespace DeadCode

/-- The ways to import. -/
inductive ImportKind where
  /-- An `import` statement or an export from another module. -/
  | es6
  /-- A `require` call. -/
  | commonJs
  /-- A call of `import`. -/
  | dynamic
deriving DecidableEq, Inhabited, Repr

/-- What an import takes from a module. -/
inductive ImportedName where
  /-- The default export. -/
  | defaultExport
  /-- The module as a whole. -/
  | whole
  /-- Nothing: the module is only run. -/
  | sideEffect
  /-- The export of that name. -/
  | named (name : String)
deriving DecidableEq, Inhabited, Repr

namespace ImportedName

/-- The name of the one export an import asks for. -/
def exportName? : ImportedName → Option String
  | defaultExport => some "default"
  | named name => some name
  | whole | sideEffect => none

/-- The import of an export by its name; `default` is the default export. -/
def ofName (name : String) : ImportedName :=
  if name = "default" then defaultExport else named name

end ImportedName

/-- One imported name. -/
structure Import where
  /-- The module specifier as written. -/
  source : String
  /-- The name it is bound to in the importing file, if any. -/
  localName : Option String
  /-- What is taken from the module. -/
  imported : ImportedName
  /-- How it is imported. -/
  kind : ImportKind
  /-- What the specifier points at. -/
  target : ImportTarget
  /-- The statement that carries the import. -/
  vertex : Option VertexId
  /-- The line of the import. -/
  line : Nat
deriving DecidableEq, Inhabited, Repr

namespace Import

/-- The name of the package imported from, if it is one. -/
def packageName? (i : Import) : Option String :=
  match i.target with
  | .package name _ => some name
  | .relative _ => none

/-- The canonical path of the file imported from, if it is one. -/
def resolvedPath? (i : Import) : Option Path :=
  match i.target with
  | .package .. => none
  | .relative path => some path

/-- Whether the import is from a package. -/
def isPackage (i : Import) : Bool :=
  i.packageName?.isSome

/-- Whether the import takes the module as a whole. -/
def isWhole (i : Import) : Bool :=
  i.imported = .whole

/-- Whether the module is only run. -/
def isSideEffect (i : Import) : Bool :=
  i.imported = .sideEffect

end Import

namespace Node

/-! ## What a node imports

Each reading gives the local names a node binds, with what they take from the module. -/

/-- The names one part of an import clause binds. -/
def clauseImports (source : String) (part : Node) : List (Option String × ImportedName) :=
  match part.kind with
  | .identifier => [(part.text? source, .defaultExport)]
  | .namespaceImport =>
    [((part.namedChildren.find? (·.kind = .identifier)).bind (·.text? source), .whole)]
  | .namedImports =>
    (part.namedChildren.filter (·.kind = .importSpecifier)).filterMap fun specifier => do
      let imported ← (← specifier.child? .name).staticKey? source
      let newName? := (specifier.child? .aliased).bind (·.text? source)
      return (some (newName?.getD imported), .ofName imported)
  | _ => []

/-- The names an import statement binds; without any the module is only run. -/
def statementImports (source : String) (n : Node) : List (Option String × ImportedName) :=
  let clauses := n.namedChildren.filter (·.kind = .importClause)
  match clauses.flatMap fun clause => clause.namedChildren.flatMap (·.clauseImports source) with
  | [] => [(none, .sideEffect)]
  | imports => imports

/-- The names an export statement takes from another module; without a clause it takes all. -/
def reexportImports (source : String) (n : Node) : List (Option String × ImportedName) :=
  match n.namedChildren.find? (·.kind = .exportClause) with
  | none => [(none, .whole)]
  | some clause =>
    clause.namedChildren.filterMap fun specifier =>
      ((specifier.child? .name).bind (·.staticKey? source)).map fun name => (none, .ofName name)

/-- The names that the left side of a declarator takes out of a `require` call. -/
def declaratorImports (source : String) (declarator : Node) : List (Option String × ImportedName) :=
  match declarator.child? .name with
  | none => [(none, .whole)]
  | some pattern =>
    if pattern.kind = .identifier then [(pattern.text? source, .whole)]
    else
      match pattern.patternKeys source with
      | [] => [(none, .whole)]
      | keys => keys.map fun (name, key) => (some name, (key.map ImportedName.ofName).getD .whole)

/-- The names a `require` call binds, judged by the nodes around it, innermost first. -/
def requireImports (source : String) (around : List Node) : List (Option String × ImportedName) :=
  match around with
  | [] => [(none, .whole)]
  | parent :: outer =>
    match parent.kind with
    | .variableDeclarator => parent.declaratorImports source
    | .expressionStatement => [(none, .sideEffect)]
    | .assignmentExpression =>
      [(((parent.child? .left).filter (·.kind = .identifier)).bind (·.text? source), .whole)]
    | .memberExpression =>
      match (parent.child? .property).bind (·.staticKey? source) with
      | none => [(none, .whole)]
      | some property =>
        let pattern := (outer.head?.filter (·.kind = .variableDeclarator)).bind (·.child? .name)
        [((pattern.filter (·.kind = .identifier)).bind (·.text? source), .ofName property)]
    | _ => [(none, .whole)]

/-- The specifier of a dynamic import. -/
def dynamicSource? (source : String) (n : Node) : Option String := do
  guard ((← n.child? .function).kind = .importToken)
  (← (← n.child? .arguments).namedChildren.head?).stringValue? source

end Node

/-! ## Collecting the imports of a file -/

namespace Import

/-- What the collection needs to know of the file. -/
structure Context where
  /-- The text of the file. -/
  source : String
  /-- The directory of the file. -/
  directory : Path
  /-- The statements of the file. -/
  graph : StatementGraph

/-- The imports of one node from one module; a specifier that names nothing gives none. -/
def ofNames (context : Context) (n : Node) (specifier : String) (kind : ImportKind)
    (names : List (Option String × ImportedName)) : List Import :=
  match Specifier.resolve? context.directory specifier with
  | none => []
  | some target =>
    names.map fun (localName, imported) =>
      { source := specifier, localName, imported, kind, target
        vertex := context.graph.findVertex? n.span
        line := (n.location context.source).line }

/-- The imports a node makes by itself, given the nodes around it, innermost first. -/
def atNode (context : Context) (around : List Node) (n : Node) : List Import :=
  let source := context.source
  match n.kind with
  | .importStatement =>
    match (n.child? .source).bind (·.stringValue? source) with
    | none => []
    | some specifier => ofNames context n specifier .es6 (n.statementImports source)
  | .exportStatement =>
    match (n.child? .source).bind (·.stringValue? source) with
    | none => []
    | some specifier => ofNames context n specifier .es6 (n.reexportImports source)
  | .callExpression =>
    match n.requireSource? source with
    | some specifier =>
      ofNames context n specifier .commonJs (Node.requireImports source around)
    | none =>
      match n.dynamicSource? source with
      | some specifier => ofNames context n specifier .dynamic [(none, .whole)]
      | none => []
  | _ => []

mutual

/-- The imports of a subtree in pre-order, given the nodes around it, innermost first. -/
def inTree (context : Context) (around : List Node) : Node → List Import
  | ⟨kind, span, flags, field, children⟩ =>
    let n : Node := ⟨kind, span, flags, field, children⟩
    atNode context around n ++ inTrees context (n :: around) children

/-- The imports of a list of subtrees. -/
def inTrees (context : Context) (around : List Node) : List Node → List Import
  | [] => []
  | n :: rest => inTree context around n ++ inTrees context around rest

end

/-- The imports of a file. The file at the root of a path has the root as its directory. -/
def ofFile (path : Path) (source : String) (root : Node) (graph : StatementGraph) : List Import :=
  inTree { source, directory := path.parent?.getD ⟨"/"⟩, graph } [] root

end Import

end DeadCode

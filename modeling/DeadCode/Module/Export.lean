import DeadCode.Graph.Basic
import DeadCode.Syntax.Pattern

/-! # Exports

The exports of a file come from its top-level statements: `export` statements, and assignments to
`module.exports` and `exports`. Each names the statement that exports and the statement that
produces the exported value. -/

namespace DeadCode

/-- One exported name. -/
structure Export where
  /-- The name others import it by: `default` for a default export, `*` for everything another
  module exports. -/
  name : String
  /-- The statement that exports. -/
  vertex : VertexId
  /-- The statement that produces the exported value. -/
  producer : VertexId
  /-- The canonical path of the exporting file. -/
  path : Path
  /-- The line of the exporting statement. -/
  line : Nat
  /-- Whether the export is an assignment and not an `export` statement. -/
  commonJs : Bool
deriving DecidableEq, Inhabited, Repr

/-- Whether an export stands for everything another module exports. -/
def Export.isStar (e : Export) : Bool :=
  e.name = "*"

namespace Node

/-! ## What a statement exports

Each reading gives the exported names of a statement, with the local name behind each. -/

/-- The names an exported declaration binds. -/
def declarationNames (source : String) (n : Node) : List String :=
  match n.kind with
  | .lexicalDeclaration | .variableDeclaration => n.declaratorNames source
  | _ => (n.name? source).toList

/-- The text of a node that is an identifier. -/
def identifierText? (source : String) (n : Node) : Option String :=
  if n.kind = .identifier then n.text? source else none

/-- The names one part of an export statement lists. Names of another module have no local name. -/
def clauseExports (source : String) (fromModule : Bool) (part : Node) :
    List (String × Option String) :=
  match part.kind with
  | .exportClause =>
    part.namedChildren.filterMap fun specifier => do
      let name ← (← specifier.child? .name).staticKey? source
      let newName? := (specifier.child? .aliased).bind (·.staticKey? source)
      return (newName?.getD name, if fromModule then none else some name)
  | .namespaceExport =>
    (part.namedChildren.head?.bind (·.staticKey? source)).toList.map fun name => (name, none)
  | _ => []

/-- The names an `export` statement exports. -/
def statementExports (source : String) (n : Node) : List (String × Option String) :=
  match n.child? .declaration with
  | some declaration =>
    let names := declaration.declarationNames source
    if n.children.any (·.kind = .defaultToken) then [("default", names.head?)]
    else names.map fun name => (name, some name)
  | none =>
    match n.child? .value with
    | some value => [("default", value.identifierText? source)]
    | none =>
      let fromModule := (n.child? .source).isSome
      match n.namedChildren.flatMap (·.clauseExports source fromModule) with
      | [] => if fromModule then [("*", none)] else []
      | names => names

/-- The names that one member of an object assigned to `module.exports` exports. -/
def memberExports (source : String) (part : Node) : List (String × Option String) :=
  match part.kind with
  | .shorthandPropertyIdentifier => (part.text? source).toList.map fun name => (name, some name)
  | .pair =>
    ((part.child? .key).bind (·.staticKey? source)).toList.map fun key =>
      (key, (part.child? .value).bind (·.identifierText? source))
  | .methodDefinition =>
    ((part.child? .name).bind (·.staticKey? source)).toList.map fun name => (name, none)
  | _ => []

/-- The names that an assignment of `value` to a chain exports. -/
def assignmentExports (source : String) (chain : List String) (value : Node) :
    List (String × Option String) :=
  match chain with
  | ["module", "exports"] =>
    if value.kind = .objectLiteral then value.namedChildren.flatMap (·.memberExports source)
    else [("default", value.identifierText? source)]
  | ["module", "exports", name] => [(name, value.identifierText? source)]
  | ["exports", name] => [(name, value.identifierText? source)]
  | _ => []

/-- The names an expression statement exports by assigning to `module.exports` or `exports`. -/
def expressionExports (source : String) (n : Node) : List (String × Option String) :=
  match n.assignment? with
  | none => []
  | some assignment =>
    match assignment.child? .left, assignment.child? .right with
    | some left, some right =>
      match left.memberChain? source with
      | some chain => assignmentExports source chain right
      | none => []
    | _, _ => []

end Node

namespace Export

/-- The statement that produces what an export statement exports under a local name: the one it
reads or calls by that name last, or else the export statement itself. -/
def producerOf (graph : StatementGraph) (vertex : VertexId) (localName : Option String) : VertexId :=
  match localName with
  | none => vertex
  | some name =>
    let edge? := (graph.outgoing vertex).find? fun e =>
      (e.relation.kind = .read || e.relation.kind = .call) && e.relation.var = some name
    (edge?.map (·.target)).getD vertex

/-- The exports of one top-level statement. -/
def ofStatement (source : String) (path : Path) (graph : StatementGraph) (n : Node) : List Export :=
  match graph.vertexByKey? n.key with
  | none => []
  | some vertex =>
    let exports (commonJs : Bool) (names : List (String × Option String)) : List Export :=
      names.map fun (name, localName) =>
        { name, vertex, producer := producerOf graph vertex localName, path
          line := (n.location source).line, commonJs }
    match n.kind with
    | .exportStatement => exports false (n.statementExports source)
    | .expressionStatement => exports true (n.expressionExports source)
    | _ => []

/-- The exports of a file, by its canonical path. -/
def ofFile (source : String) (path : Path) (root : Node) (graph : StatementGraph) : List Export :=
  root.namedChildren.flatMap (ofStatement source path graph)

end Export

end DeadCode

import DeadCode.Syntax.Pattern
import DeadCode.Graph.Basic

/-! # The state of name resolution

Resolving the names of a file grows its statement graph and its tree of scopes together. The bodies
of callables are not entered where they stand: a callable is registered with the scope it is
declared in, a call puts it into a queue, and its body is linked later in a function scope of its
own. `Build` is the type of the steps: they change a `Builder` and can end in a `BuildError`. -/

namespace DeadCode

/-- A callable with the place it was declared in. -/
structure Callable where
  /-- The syntax of the callable. -/
  node : Node
  /-- The scope the callable was last registered in. -/
  scope : ScopeId
  /-- The statement that stands for the callable. -/
  owner : VertexId
deriving Inhabited, Repr

/-- A call that was linked, and what the names of its callee led to at that moment. -/
structure LinkedCall where
  /-- The call. -/
  call : Node
  /-- The names of the callee. -/
  chain : List String
  /-- The scope in which they were looked up. -/
  scope : ScopeId
  /-- The binding they led to. -/
  found : Option Binding
  /-- The statement around the call. -/
  site : Option VertexId
deriving Inhabited, Repr

/-- The reasons why the graph of a file cannot be built. -/
inductive BuildError where
  | graph (error : GraphError)
  | scope (error : ScopeError)
deriving DecidableEq, Inhabited, Repr

/-- The wording of a build error. -/
def BuildError.message : BuildError → String
  | graph error => error.message
  | scope error => error.message

/-- What name resolution has found so far. -/
structure Builder where
  /-- The statements and their relations. -/
  graph : StatementGraph
  /-- The scopes and their bindings. -/
  scopes : ScopeTree
  /-- The callables by identity, in the order in which they were first seen. -/
  callables : List (Key × Callable) := []
  /-- The callables whose bodies are to be linked. -/
  queue : List Key := []
  /-- The callables whose bodies were linked, each with the scope it was declared in. -/
  expanded : List (Key × ScopeId) := []
  /-- The callables called, each with the statement of the call. -/
  callSites : Array (Key × VertexId) := #[]
  /-- The `return` statements, each with the callable it returns from. -/
  returns : Array (Key × VertexId) := #[]
  /-- The callable whose body is being linked. -/
  current : Option Key := none
  /-- All calls that were linked. This is a history: steps write it, and nothing depends on it. -/
  calls : Array LinkedCall := #[]
deriving Inhabited, Repr

/-- A step of name resolution. -/
abbrev Build := StateT Builder (Except BuildError)

namespace Builder

/-- The callable of an identity. -/
def callable? (builder : Builder) (key : Key) : Option Callable :=
  builder.callables.lookup key

/-- A list of callables with one put in the place of an older one of the same identity, or at the
end. -/
def setCallable (callables : List (Key × Callable)) (key : Key) (callable : Callable) :
    List (Key × Callable) :=
  match callables with
  | [] => [(key, callable)]
  | (k, c) :: rest =>
    if k = key then (key, callable) :: rest else (k, c) :: setCallable rest key callable

/-- What the names of a callee lead to, as things are now. -/
def lookUp (builder : Builder) (call : Node) (chain : List String) (scope : ScopeId) : LinkedCall :=
  { call, chain, scope, found := builder.scopes.lookupChain? scope chain
    site := builder.graph.findVertex? call.span }

end Builder

namespace Build

/-- A step that changes the graph. -/
def onGraph {α : Type} (step : StatementGraph → Except GraphError (α × StatementGraph)) : Build α := do
  let builder ← get
  match step builder.graph with
  | .ok (result, graph) =>
    set { builder with graph }
    return result
  | .error error => throw (.graph error)

/-- A step that changes the scopes. -/
def onScopes {α : Type} (step : ScopeTree → Except ScopeError (α × ScopeTree)) : Build α := do
  let builder ← get
  match step builder.scopes with
  | .ok (result, scopes) =>
    set { builder with scopes }
    return result
  | .error error => throw (.scope error)

/-- A new scope inside another. -/
def addScope (parent : ScopeId) (kind : ScopeKind) : Build ScopeId :=
  onScopes (·.addScope parent kind)

/-- Declares a binding. -/
def declare (scope : ScopeId) (binding : Binding) (hoist : Hoist) : Build Unit :=
  onScopes fun tree => (tree.declare scope binding hoist).map fun (_, tree) => ((), tree)

/-- Declares names that a statement binds on the scope they stand in. -/
def declareNames (scope : ScopeId) (names : List String) (vertex : VertexId) : Build Unit :=
  names.forM fun name => declare scope (.declared name vertex) .lexical

/-- The statement of a node, added to the graph if it is not there yet. -/
def addVertex (vertex : Vertex) : Build VertexId :=
  onGraph fun graph => .ok (graph.addVertex vertex)

/-- The vertex of a statement that appears in a scope. -/
def statementVertex (source : String) (n : Node) (scope : ScopeId) : Build VertexId :=
  addVertex
    { key := n.key, location := n.location source, scope
      isDeclaration := n.kind.isDeclaration, isTerminal := n.isTerminal source }

/-- The vertex of a method, which is no statement of its own but owns the statements of its body. -/
def methodVertex (source : String) (n : Node) (scope : ScopeId) : Build VertexId :=
  addVertex { key := n.key, location := n.location source, scope }

/-- Relates two statements. -/
def connect (source target : VertexId) (relation : Relation) : Build Unit :=
  onGraph fun graph => (graph.connect source target relation).map fun (_, graph) => ((), graph)

/-- Relates the statement around a piece of syntax to the innermost statement around another
statement's range. -/
def relate (n : Node) (target : VertexId) (relation : Relation) : Build Unit :=
  onGraph fun graph =>
    match graph.vertex? target with
    | none => .error (.unknownVertex target)
    | some vertex => (graph.addEdge n.span vertex.span relation).map fun (_, graph) => ((), graph)

/-- The statement around a piece of syntax. -/
def enclosing? (n : Node) : Build (Option VertexId) := do
  return (← get).graph.findVertex? n.span

/-- The statement that declares a name seen from a scope. -/
def declarationOf? (scope : ScopeId) (name : String) : Build (Option VertexId) := do
  return (← get).scopes.declarationOf? scope name

/-- Registers a callable with the scope it is declared in; the last registration counts. -/
def register (n : Node) (scope : ScopeId) (owner : VertexId) : Build Key := do
  modify fun builder =>
    { builder with
      callables := Builder.setCallable builder.callables n.key { node := n, scope, owner } }
  return n.key

/-- Registers a class as a callable of its own, unless that was done before. -/
def registerClass (n : Node) (scope : ScopeId) (owner : VertexId) : Build Unit :=
  modify fun builder =>
    match builder.callable? n.key with
    | some _ => builder
    | none =>
      { builder with
        callables := Builder.setCallable builder.callables n.key { node := n, scope, owner } }

/-- Puts a callable at the end of the queue. -/
def enqueue (key : Key) : Build Unit :=
  modify fun builder => { builder with queue := builder.queue ++ [key] }

/-- Notes that a statement calls a callable. -/
def noteCall (key : Key) (site : VertexId) : Build Unit :=
  modify fun builder => { builder with callSites := builder.callSites.push (key, site) }

/-- Notes a call that is being linked. -/
def noteLinked (call : Node) (chain : List String) (scope : ScopeId) : Build Unit :=
  modify fun builder => { builder with calls := builder.calls.push (builder.lookUp call chain scope) }

/-- Notes that a statement returns from the callable whose body is being linked. -/
def noteReturn (vertex : VertexId) : Build Unit :=
  modify fun builder =>
    match builder.current with
    | some key => { builder with returns := builder.returns.push (key, vertex) }
    | none => builder

/-- Applies `update` to the binding a chain of names leads to, if a statement declares it. -/
def updateDeclared (scope : ScopeId) (chain : List String) (update : Binding → Binding) :
    Build Unit :=
  modify fun builder =>
    { builder with
      scopes := builder.scopes.updateChain scope chain fun binding =>
        if binding.declaration.isSome then update binding else binding }

end Build

/-! ## References by name -/

namespace Build

/-- Relates the statement around an identifier to the statement that declares it, if any does. -/
def reference (source : String) (n : Node) (scope : ScopeId) (kind : RelationKind) : Build Unit := do
  match n.text? source with
  | none => pure ()
  | some name =>
    match ← declarationOf? scope name with
    | none => pure ()
    | some target => relate n target (.named kind name)

/-- Relates the statement around a member expression to the declaration of the deepest member of
its chain that is known. -/
def memberReference (n : Node) (chain : List String) (scope : ScopeId) (kind : RelationKind) :
    Build Unit := do
  match ((← get).scopes.resolvePrefix? scope chain).bind (·.1.declaration) with
  | none => pure ()
  | some target => relate n target (.named kind (".".intercalate chain))

/-- The binding of a `var` name: a function of that name gives way only to a value. -/
def hoistVar (scope : ScopeId) (name : String) (vertex : VertexId) (hasValue : Bool) :
    Build Unit := do
  let scopes := (← get).scopes
  match scopes.hoistTarget scope with
  | .error error => throw (.scope error)
  | .ok target =>
    let isFunction := (scopes.local? target name).any (·.callable.isSome)
    if isFunction && !hasValue then pure ()
    else declare scope (.declared name vertex) .hoisted

end Build

end DeadCode

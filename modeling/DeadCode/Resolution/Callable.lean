import DeadCode.Resolution.Hoisting
import DeadCode.Resolution.Statement

/-! # Linking the bodies of callables

Calls queue the callables they run. The queue is worked off one body at a time, each in a function
scope inside the scope its callable was declared in, and bodies queue further callables. When the
queue is empty, the callables that nothing calls are queued too. A callable is entered once for
every scope it was declared in.

`StatementGraph.build?` resolves a whole file: it hoists and links the top level, then the bodies of
all callables, and at last relates the returns of each callable to the statements that call it. -/

namespace DeadCode

/-! ## How many bodies there are to link -/

namespace Node

mutual

/-- A bound on how often the callables of a tree are entered. A callable is registered while the
body of a callable around it is linked, or while the top level is, so it is entered at most once for
each time one of those is: nesting in a callable at most doubles the count. -/
def entryBound : Node → Nat
  | ⟨kind, _, _, _, children⟩ =>
    if kind.isCallable then 2 * entryBounds children + 1 else entryBounds children

/-- The bound for a list of trees. -/
def entryBounds : List Node → Nat
  | [] => 0
  | n :: rest => entryBound n + entryBounds rest

end

end Node

namespace Builder

/-- Whether the body of a callable is still to be linked for the scope it was last declared in. A
class has no body of its own to link. -/
def isPending (builder : Builder) (key : Key) : Bool :=
  match builder.callable? key with
  | some callable =>
    !callable.node.kind.isClass && !builder.expanded.contains (key, callable.scope)
  | none => false

/-- The callables to link, the next one first: the queue from its first pending callable on, or if
it has none, all that are pending. -/
def agenda (builder : Builder) : List Key :=
  match builder.queue.dropWhile (!builder.isPending ·) with
  | [] => (builder.callables.map Prod.fst).filter builder.isPending
  | queue => queue

end Builder

/-! ## Linking a body -/

/-- The names every function but an arrow function has without declaring them. -/
def implicitNames : List String := ["this", "arguments"]

namespace Build

/-- Declares the names a callable brings along: `this` and `arguments`, and for a function literal
with a name that name. An arrow function brings none. -/
def ownNames (source : String) (key : Key) (callable : Callable) (scope : ScopeId) : Build Unit := do
  if callable.node.kind = .arrowFunction then pure ()
  else
    implicitNames.forM fun name => declare scope (.placeholder name) .lexical
    if callable.node.kind.isFunctionLiteral then
      (callable.node.name? source).forM fun name =>
        declare scope { Binding.declared name callable.owner with callable := some key } .lexical

/-- The default value of a parameter. -/
def defaultValue? (parameter : Node) : Option Node :=
  match parameter.kind with
  | .assignmentPattern | .requiredParameter | .optionalParameter =>
    (parameter.child? .right).or (parameter.child? .value)
  | _ => none

/-- Declares the parameters of a callable and resolves the names in their default values. -/
def parameters (source : String) (callable : Callable) (scope : ScopeId) : Build Unit :=
  callable.node.parameters?.forM fun parameters => do
    declareNames scope (parameters.patternNames source) callable.owner
    parameters.namedChildren.forM fun parameter =>
      (defaultValue? parameter).forM fun value => expression source value scope

/-- Links the body of a callable: the statements of a block, or a single expression. -/
def body (source : String) (key : Key) (callable : Callable) (scope : ScopeId) : Build Unit :=
  (callable.node.child? .body).forM fun body => do
    let outer := (← get).current
    modify ({ · with current := some key })
    if body.kind = .statementBlock then
      hoistBody source body scope false
      linkBody source body scope (some callable.owner)
    else
      expression source body scope
    modify ({ · with current := outer })

/-- Enters a callable: links its parameters and its body in a new function scope. -/
def enter (source : String) (key : Key) : Build Unit := do
  match (← get).callable? key with
  | none => pure ()
  | some callable =>
    modify fun builder =>
      { builder with expanded := (key, callable.scope) :: builder.expanded }
    let scope ← addScope callable.scope .function
    ownNames source key callable scope
    parameters source callable scope
    body source key callable scope

/-- Enters callables until none is left to enter, at most `limit` of them. -/
def enterAll (source : String) : (limit : Nat) → Build Unit
  | 0 => pure ()
  | limit + 1 => do
    match (← get).agenda with
    | [] => pure ()
    | key :: rest =>
      modify ({ · with queue := rest })
      enter source key
      enterAll source limit

/-- Relates every `return` statement of a callable to every statement that calls it. -/
def connectReturns : Build Unit := do
  let builder ← get
  builder.callSites.toList.forM fun (key, site) =>
    (builder.returns.toList.filter (·.1 = key)).forM fun (_, vertex) =>
      connect vertex site { kind := .returns }

/-- Resolves the names of a whole file. -/
def file (source : String) (root : Node) : Build Unit := do
  hoistBody source root ScopeTree.globalId true
  linkBody source root ScopeTree.globalId none
  enterAll source root.entryBound
  connectReturns

end Build

/-- The statement graph and the scopes of a file with the given ambient names. -/
def StatementGraph.build? (path : Path) (source : String) (root : Node) (ambient : List String) :
    Except BuildError (StatementGraph × ScopeTree) := do
  let builder : Builder := { graph := { path }, scopes := .ofAmbient ambient }
  let ((), builder) ← (Build.file source root).run builder
  return (builder.graph, builder.scopes)

end DeadCode

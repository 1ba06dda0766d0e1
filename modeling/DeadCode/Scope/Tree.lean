import DeadCode.Scope.Binding

/-! # Trees of lexical scopes

Scopes are numbered in the order of their creation, the global scope first, and each knows its
parent, which is older. A name is looked up along the `ScopeTree.chain` from a scope to the global
one. A hoisted declaration lands on the nearest scope that is no block, a lexical one where it
stands. -/

namespace DeadCode

/-- The number of a scope in its tree. -/
abbrev ScopeId := Nat

/-- The kinds of lexical environments. -/
inductive ScopeKind where
  /-- The environment of a whole file. -/
  | global
  /-- The body of a function. -/
  | function
  /-- A nested block. -/
  | block
deriving DecidableEq, Inhabited, Repr

/-- How far out a declaration is visible. -/
inductive Hoist where
  /-- On the nearest function or global scope: `var`, function declarations, imports. -/
  | hoisted
  /-- On the scope it stands in: `let`, `const`, classes, parameters. -/
  | lexical
deriving DecidableEq, Inhabited, Repr

/-- One lexical scope. -/
structure Scope where
  /-- The scope around this one; none for the global scope. -/
  parent : Option ScopeId
  /-- The kind of environment. -/
  kind : ScopeKind
  /-- The names declared on this scope, each with its binding. -/
  bindings : List (String × Binding) := []
deriving Inhabited, Repr

/-- The ways in which a tree of scopes can be used wrongly. -/
inductive ScopeError where
  /-- There is no scope of that number. -/
  | unknownScope (scope : ScopeId)
  /-- No scope around that one takes hoisted declarations. -/
  | noHoistTarget (scope : ScopeId)
deriving DecidableEq, Inhabited, Repr

/-- The wording of a scope error. -/
def ScopeError.message : ScopeError → String
  | unknownScope scope => s!"unknown scope #{scope}"
  | noHoistTarget scope => s!"scope #{scope} has no enclosing function or global scope"

/-- The scopes of one file. -/
structure ScopeTree where
  /-- The scopes by number. -/
  scopes : Array Scope
deriving Inhabited, Repr

namespace ScopeTree

/-- The number of the global scope. -/
def globalId : ScopeId := 0

/-- The names the host environment of a file provides. -/
def defaultAmbient : List String :=
  ["require", "module", "exports", "__dirname", "__filename", "process", "console", "globalThis"]

/-- The binding of a name the host environment provides; `module` has a member `exports`. -/
def ambientBinding (name : String) : Binding :=
  if name = "module" then (Binding.placeholder name).withMember (.placeholder "exports")
  else .placeholder name

/-- The tree of a global scope that knows the given ambient names. -/
def ofAmbient (ambient : List String) : ScopeTree :=
  { scopes := #[{ parent := none, kind := .global
                  bindings := Binding.insertAll []
                    (ambient.map fun name => (name, ambientBinding name)) }] }

/-- The scope of a number. -/
def scope? (tree : ScopeTree) (scope : ScopeId) : Option Scope :=
  tree.scopes[scope]?

/-- The number of scopes. -/
def size (tree : ScopeTree) : Nat :=
  tree.scopes.size

/-- The scope around a scope. -/
def parent? (tree : ScopeTree) (scope : ScopeId) : Option ScopeId :=
  (tree.scope? scope).bind (·.parent)

/-- The kind of a scope. -/
def kind? (tree : ScopeTree) (scope : ScopeId) : Option ScopeKind :=
  (tree.scope? scope).map (·.kind)

/-- The bindings declared on a scope itself. -/
def bindings (tree : ScopeTree) (scope : ScopeId) : List Binding :=
  ((tree.scope? scope).map (·.bindings.map (·.2))).getD []

/-- The scopes from a scope outwards to the global one. -/
def chain (tree : ScopeTree) (scope : ScopeId) : List ScopeId :=
  match tree.scope? scope with
  | none => []
  | some { parent := none, .. } => [scope]
  | some { parent := some parent, .. } =>
    scope :: if parent < scope then tree.chain parent else []
termination_by scope

/-- A new scope inside `parent`. -/
def addScope (tree : ScopeTree) (parent : ScopeId) (kind : ScopeKind) :
    Except ScopeError (ScopeId × ScopeTree) :=
  match tree.scope? parent with
  | none => .error (.unknownScope parent)
  | some _ =>
    .ok (tree.scopes.size, { scopes := tree.scopes.push { parent := some parent, kind } })

/-- Whether a scope takes hoisted declarations. -/
def takesHoisted (tree : ScopeTree) (scope : ScopeId) : Bool :=
  tree.kind? scope = some .function || tree.kind? scope = some .global

/-- The nearest function or global scope at or around a scope. -/
def hoistTarget (tree : ScopeTree) (scope : ScopeId) : Except ScopeError ScopeId :=
  match tree.scope? scope with
  | none => .error (.unknownScope scope)
  | some _ =>
    match (tree.chain scope).find? tree.takesHoisted with
    | some target => .ok target
    | none => .error (.noHoistTarget scope)

/-- The scope on which a declaration standing in `scope` lands. -/
def landing (tree : ScopeTree) (scope : ScopeId) : Hoist → Except ScopeError ScopeId
  | .hoisted => tree.hoistTarget scope
  | .lexical => .ok scope

/-- The tree with a binding declared, and the scope that received it. A binding replaces one of its
name on that scope and touches no other scope. -/
def declare (tree : ScopeTree) (scope : ScopeId) (binding : Binding) (hoist : Hoist) :
    Except ScopeError (ScopeId × ScopeTree) := do
  let target ← tree.landing scope hoist
  match tree.scope? target with
  | none => .error (.unknownScope target)
  | some receiver =>
    let receiver :=
      { receiver with bindings := Binding.insert receiver.bindings binding.name binding }
    return (target, { scopes := tree.scopes.setIfInBounds target receiver })

/-! ## Looking names up -/

/-- The binding of a name declared on a scope itself. -/
def local? (tree : ScopeTree) (scope : ScopeId) (name : String) : Option Binding :=
  (tree.scope? scope).bind fun s => Binding.find? s.bindings name

/-- The binding of a name seen from a scope: the innermost one along the chain. -/
def lookup? (tree : ScopeTree) (scope : ScopeId) (name : String) : Option Binding :=
  (tree.chain scope).findSome? (tree.local? · name)

/-- The statement that declares a name seen from a scope. -/
def declarationOf? (tree : ScopeTree) (scope : ScopeId) (name : String) : Option VertexId :=
  (tree.lookup? scope name).bind (·.declaration)

/-- The binding that a chain of member names leads to. -/
def lookupChain? (tree : ScopeTree) (scope : ScopeId) : List String → Option Binding
  | [] => none
  | name :: rest => (tree.lookup? scope name).bind (·.descend? rest)

/-- The binding that the longest resolvable prefix of a chain leads to, and the length of that
prefix. -/
def resolvePrefix? (tree : ScopeTree) (scope : ScopeId) : List String → Option (Binding × Nat)
  | [] => none
  | name :: rest =>
    (tree.lookup? scope name).map fun binding =>
      let (deepest, depth) := binding.descendFar rest
      (deepest, depth + 1)

/-- The scope along the chain of a scope on which a name is declared. -/
def owner? (tree : ScopeTree) (scope : ScopeId) (name : String) : Option ScopeId :=
  (tree.chain scope).find? fun s => (tree.local? s name).isSome

/-- The tree with `update` applied to the binding of a name on a scope itself. -/
def updateLocal (tree : ScopeTree) (scope : ScopeId) (name : String)
    (update : Binding → Binding) : ScopeTree :=
  match tree.scope? scope with
  | none => tree
  | some s =>
    let s := { s with bindings := Binding.modify s.bindings name update }
    { scopes := tree.scopes.setIfInBounds scope s }

/-- The tree with `update` applied to the binding a chain of member names leads to; a chain that
leads nowhere changes nothing. -/
def updateChain (tree : ScopeTree) (scope : ScopeId) (chain : List String)
    (update : Binding → Binding) : ScopeTree :=
  match chain with
  | [] => tree
  | name :: rest =>
    match tree.owner? scope name with
    | none => tree
    | some owner => tree.updateLocal owner name (Binding.updateAt update rest)

end ScopeTree

end DeadCode

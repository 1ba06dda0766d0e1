import DeadCode.Resolution.State

/-! # Resolving the names in expressions

`Build.expression` visits an expression and relates the statement around it to the declarations of
the names it uses. Functions and methods on the way are registered and queued, not entered.
`Build.valueShape` says what a value makes of the name it is bound to: something that can be called,
something with members, or something imported. -/

namespace DeadCode

/-- What a value makes of the binding it is stored in. -/
structure ValueShape where
  /-- The callable the value is. -/
  callable : Option Key := none
  /-- The known members of the value, each with the name it is stored under. -/
  members : List (String × Binding) := []
  /-- The module the value is imported from. -/
  origin : Option Origin := none
deriving Inhabited, Repr

namespace ValueShape

/-- The binding of a name, declared by a statement, that holds a value of this shape. -/
def bind (shape : ValueShape) (name : String) (vertex : VertexId) : Binding :=
  { name, declaration := some vertex, callable := shape.callable, members := shape.members
    origin := shape.origin }

/-- The binding after a value of this shape is assigned to it: what the value does not tell stays,
and its members are added. -/
def assign (shape : ValueShape) (binding : Binding) : Binding :=
  { binding with
    callable := shape.callable.or binding.callable
    origin := shape.origin.or binding.origin
    members := Binding.insertAll binding.members shape.members }

/-- The shape of a value that another binding already holds. -/
def ofBinding (binding : Option Binding) : ValueShape :=
  match binding with
  | some binding => { callable := binding.callable, members := binding.members }
  | none => {}

/-- The shape with a member stored under a name. -/
def withMember (shape : ValueShape) (name : String) (member : Binding) : ValueShape :=
  { shape with members := Binding.insert shape.members name member }

end ValueShape

/-- The shape of the value of a `require` call, or of a property of one. -/
def Node.importShape (source : String) (n : Node) : ValueShape :=
  match n.kind with
  | .callExpression => { origin := (n.requireSource? source).map ({ source := ·, name := none }) }
  | .memberExpression =>
    { origin := do
        let specifier ← (← n.child? .object).requireSource? source
        let property ← (← n.child? .property).staticKey? source
        return { source := specifier, name := some property } }
  | _ => {}

/-- The parameters of a callable by position: the name of each that binds exactly one. -/
def Node.positionalNames (source : String) (parameters : Node) : List (Option String) :=
  if parameters.kind = .identifier then [parameters.text? source]
  else
    parameters.namedChildren.map fun parameter =>
      match parameter.patternNames source with
      | [name] => some name
      | _ => none

namespace Build

/-- Relates a call to the callee once for every parameter that receives an argument. -/
def parameterReferences (source : String) (call : Node) (target : VertexId) (key : Key)
    (argumentCount : Nat) : Build Unit := do
  match ((← get).callable? key).bind (·.node.parameters?) with
  | none => pure ()
  | some parameters =>
    ((parameters.positionalNames source).take argumentCount).zipIdx.forM fun (name, index) =>
      match name with
      | some name => relate call target (.indexed .param name index)
      | none => pure ()

/-- Resolves a callee that is a name or a chain of names. A known callable is related to the call
and queued; any other declaration is merely read. -/
def namedCallee (source : String) (call callee : Node) (scope : ScopeId) (argumentCount : Nat)
    (chain : List String) (fallback : RelationKind) : Build Unit := do
  let label := ".".intercalate chain
  noteLinked call chain scope
  match (← get).scopes.lookupChain? scope chain with
  | some { declaration := some target, callable := some key, .. } =>
    relate call target (.named .call label)
    parameterReferences source call target key argumentCount
    if let some site ← enclosing? call then noteCall key site
    enqueue key
  | some { declaration := none, callable := some key, .. } => enqueue key
  | some { declaration := some target, callable := none, .. } =>
    relate callee target (.named fallback label)
  | some { declaration := none, callable := none, .. } => pure ()
  | none =>
    if 1 < chain.length then memberReference callee chain scope .readProp

/-- Relates the statement around an identifier passed as an argument to its declaration. -/
def argumentReference (source : String) (n : Node) (scope : ScopeId) (index : Nat) : Build Unit := do
  match n.text? source with
  | none => pure ()
  | some name =>
    match ← declarationOf? scope name with
    | none => pure ()
    | some target => relate n target (.indexed .arg name index)

/-- Relates the statement around a destructuring assignment to the declarations of the names it
writes. -/
def patternReferences (source : String) (n : Node) (scope : ScopeId) : Build Unit :=
  (n.patternNames source).forM fun name => do
    match ← declarationOf? scope name with
    | none => pure ()
    | some target => relate n target (.named .write name)

/-- Registers and queues a callable that stands inside an expression. -/
def literalCallable (n : Node) (scope : ScopeId) : Build Unit := do
  if let some owner ← enclosing? n then
    enqueue (← register n scope owner)

/-- Stores the shape of an assigned value: in the binding of a name, or as a member of the object
that the chain without its last name leads to. -/
def storeShape (scope : ScopeId) (chain : List String) (shape : ValueShape) (owner : VertexId) :
    Build Unit :=
  match chain.reverse with
  | [] => pure ()
  | [_] => updateDeclared scope chain shape.assign
  | property :: object =>
    updateDeclared scope object.reverse (·.withMember (shape.bind property owner))

/-- Registers a method of a class, with a vertex that the class owns. -/
def classMethod (source : String) (method : Node) (scope : ScopeId) (owner : VertexId) :
    Build (VertexId × Key) := do
  let vertex ← methodVertex source method scope
  connect owner vertex { kind := .decl }
  return (vertex, ← register method scope vertex)

mutual

/-- Resolves the names in an expression. -/
def expression (source : String) (n : Node) (scope : ScopeId) : Build Unit :=
  match n.kind with
  | .comment => pure ()
  | .identifier | .shorthandPropertyIdentifier => reference source n scope .read
  | .memberExpression | .subscriptExpression => member source n scope .readProp
  | .callExpression => call source n scope .function
  | .newExpression => call source n scope .constructor
  | .assignmentExpression => do
    n.onChild .right fun right _ => expression source right scope
    n.onChild .left fun left _ => do
      writeTarget source left scope
      assignment source n left scope
  | .augmentedAssignmentExpression => do
    n.onChild .right fun right _ => expression source right scope
    n.onChild .left fun left _ => readWriteTarget source left scope
  | .updateExpression => n.onChild .argument fun argument _ => readWriteTarget source argument scope
  | .unaryExpression =>
    let isDelete := (n.child? .operator).bind (·.text? source) = some "delete"
    n.onChild .argument fun argument _ =>
      if isDelete && (argument.kind = .memberExpression || argument.kind = .subscriptExpression) then
        member source argument scope .deleteProp
      else
        expression source argument scope
  | .functionExpression | .functionLiteral | .generatorFunction | .arrowFunction =>
    literalCallable n scope
  | .classLiteral => do
    if let some owner ← enclosing? n then
      let _ ← classShape source n scope owner
  | .objectLiteral =>
    n.forNamed fun part _ =>
      match part.kind with
      | .pair => do
        part.onChild .key fun key _ =>
          if key.kind = .computedPropertyName then expression source key scope else pure ()
        part.onChild .value fun value _ => expression source value scope
      | .methodDefinition => literalCallable part scope
      | _ => expression source part scope
  | .stringLiteral | .numberLiteral | .regexLiteral | .trueLiteral | .falseLiteral | .nullLiteral
  | .undefinedLiteral | .thisLiteral | .superLiteral | .propertyIdentifier
  | .privatePropertyIdentifier | .statementIdentifier | .stringFragment | .escapeSequence => pure ()
  | _ => n.forNamed fun c _ => expression source c scope
termination_by 4 * n.size + 2

/-- Resolves a member expression: a static chain as one reference, any other by its parts. -/
def member (source : String) (n : Node) (scope : ScopeId) (kind : RelationKind) : Build Unit :=
  match n.memberChain? source with
  | some chain => memberReference n chain scope kind
  | none => do
    n.onChild .object fun object _ => expression source object scope
    n.onChild .index fun index _ => expression source index scope
termination_by 4 * n.size + 1

/-- Resolves the left side of an assignment. -/
def writeTarget (source : String) (n : Node) (scope : ScopeId) : Build Unit :=
  match n.kind with
  | .identifier => reference source n scope .write
  | .memberExpression | .subscriptExpression => member source n scope .writeProp
  | .objectPattern | .arrayPattern => patternReferences source n scope
  | .parenthesizedExpression => n.forNamed fun inner _ => writeTarget source inner scope
  | _ => expression source n scope
termination_by 4 * n.size + 3

/-- Resolves a target that is read and then written. -/
def readWriteTarget (source : String) (n : Node) (scope : ScopeId) : Build Unit :=
  match n.kind with
  | .identifier => do
    reference source n scope .read
    reference source n scope .write
  | .memberExpression | .subscriptExpression => do
    member source n scope .readProp
    member source n scope .writeProp
  | _ => expression source n scope
termination_by 4 * n.size + 3

/-- Records what an assignment stores where its left side is a name or a chain of names. -/
def assignment (source : String) (n left : Node) (scope : ScopeId) : Build Unit :=
  n.onChild .right fun right _ => do
    if let some owner ← enclosing? n then
      if let some chain := left.memberChain? source then
        let shape ← valueShape source right scope owner
        storeShape scope chain shape owner
termination_by 4 * n.size + 1

/-- Resolves a call: its callee, and then its arguments by position. -/
def call (source : String) (n : Node) (scope : ScopeId) (calleeField : Field) : Build Unit := do
  let argumentCount := ((n.child? .arguments).map (·.namedChildren.length)).getD 0
  n.onChild calleeField fun target _ => callee source n target scope argumentCount
  n.onChild .arguments fun arguments _ => do
    let _ ← arguments.foldNamed 0 fun index argument _ => do
      if argument.kind = .identifier then argumentReference source argument scope index
      else expression source argument scope
      return index + 1
termination_by 4 * n.size + 1

/-- Resolves what a call calls. -/
def callee (source : String) (n target : Node) (scope : ScopeId) (argumentCount : Nat) :
    Build Unit :=
  match target.kind with
  | .identifier =>
    match target.text? source with
    | some name => namedCallee source n target scope argumentCount [name] .read
    | none => pure ()
  | .memberExpression | .subscriptExpression =>
    match target.memberChain? source with
    | some chain => namedCallee source n target scope argumentCount chain .readProp
    | none => expression source target scope
  | _ => expression source target scope
termination_by 4 * target.size + 3

/-- The shape of a value; the callables it contains are registered. -/
def valueShape (source : String) (n : Node) (scope : ScopeId) (owner : VertexId) :
    Build ValueShape :=
  match n.kind with
  | .functionExpression | .functionLiteral | .generatorFunction | .arrowFunction => do
    return { callable := some (← register n scope owner) }
  | .classLiteral => classShape source n scope owner
  | .objectLiteral =>
    n.foldNamed ({} : ValueShape) fun shape part _ =>
      match part.kind with
      | .pair =>
        match (part.child? .key).bind (·.staticKey? source) with
        | none => pure shape
        | some key => do
          let value : ValueShape ← part.withChild .value (pure {}) fun value _ =>
            valueShape source value scope owner
          return shape.withMember key (value.bind key owner)
      | .shorthandPropertyIdentifier =>
        match part.text? source with
        | none => pure shape
        | some name => do
          let value := ValueShape.ofBinding ((← get).scopes.lookup? scope name)
          return shape.withMember name (value.bind name owner)
      | .methodDefinition =>
        match (part.child? .name).bind (·.staticKey? source) with
        | none => pure shape
        | some name => do
          let key ← register part scope owner
          return shape.withMember name { Binding.declared name owner with callable := some key }
      | _ => pure shape
  | .parenthesizedExpression =>
    n.withSole (pure {}) fun inner _ => valueShape source inner scope owner
  | .identifier =>
    match n.text? source with
    | none => pure {}
    | some name => do return ValueShape.ofBinding ((← get).scopes.lookup? scope name)
  | _ => pure (n.importShape source)
termination_by 4 * n.size + 1

/-- The shape of a class, which is called through its constructor. Its methods become vertices that
the owner owns, and the names in its heritage and in its field initialisers are resolved. -/
def classShape (source : String) (n : Node) (scope : ScopeId) (owner : VertexId) :
    Build ValueShape := do
  n.forNamed fun part _ =>
    if part.kind = .classHeritage then part.forNamed fun base _ => expression source base scope
    else pure ()
  let shape : ValueShape ← n.withChild .body (pure {}) fun body _ =>
    body.foldNamed ({} : ValueShape) fun shape part _ =>
      match part.kind with
      | .methodDefinition => do
        let (vertex, key) ← classMethod source part scope owner
        match (part.child? .name).bind (·.staticKey? source) with
        | none => pure shape
        | some name =>
          let shape := if name = "constructor" then { shape with callable := some key } else shape
          return shape.withMember name { Binding.declared name vertex with callable := some key }
      | .fieldDefinition | .publicFieldDefinition =>
        part.withChild .value (pure shape) fun value _ => do
          expression source value scope
          match ((part.child? .property).or (part.child? .name)).bind (·.staticKey? source) with
          | none => pure shape
          | some name =>
            let field ← valueShape source value scope owner
            return shape.withMember name (field.bind name owner)
      | _ => pure shape
  match shape.callable with
  | some _ => return shape
  | none =>
    registerClass n scope owner
    return { shape with callable := some n.key }
termination_by 4 * n.size

end

end Build

end DeadCode

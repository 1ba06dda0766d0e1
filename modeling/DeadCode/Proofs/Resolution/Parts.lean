import DeadCode.Resolution.Statement

/-! # The parts of larger steps

Resolving an object or a class goes through its parts, and each form of compound statement is linked
in its own way. What is done with one part or one form is named here, so that it can be spoken of. -/

namespace DeadCode.Build

variable (source : String) (n part : Node) (scope : ScopeId) (owner vertex : VertexId)

/-! ## Objects and classes -/

/-- Resolves a part of an object. -/
def objectPart : Build Unit :=
  match part.kind with
  | .pair => do
    part.onChild .key fun key _ =>
      if key.kind = .computedPropertyName then expression source key scope else pure ()
    part.onChild .value fun value _ => expression source value scope
  | .methodDefinition => literalCallable part scope
  | _ => expression source part scope

/-- Adds a part of an object to the shape of the object. -/
def objectShape (shape : ValueShape) : Build ValueShape :=
  match part.kind with
  | .pair =>
    match (part.child? .key).bind (·.staticKey? source) with
    | none => pure shape
    | some key => do
      let value : ValueShape ← part.withChild .value (pure {}) fun value _ =>
        valueShape source value scope owner
      return shape.withMember key (value.bind key owner)
  | .shorthandPropertyIdentifier =>
    match part.text? source with
    | none => pure shape
    | some name => do
      let value := ValueShape.ofBinding ((← get).scopes.lookup? scope name)
      return shape.withMember name (value.bind name owner)
  | .methodDefinition =>
    match (part.child? .name).bind (·.staticKey? source) with
    | none => pure shape
    | some name => do
      let key ← register part scope owner
      return shape.withMember name { Binding.declared name owner with callable := some key }
  | _ => pure shape

/-- Resolves the value of a field and adds the field to the shape of its class. -/
def classField (shape : ValueShape) : Build ValueShape :=
  part.withChild .value (pure shape) fun value _ => do
    expression source value scope
    match ((part.child? .property).or (part.child? .name)).bind (·.staticKey? source) with
    | none => pure shape
    | some name =>
      let field ← valueShape source value scope owner
      return shape.withMember name (field.bind name owner)

/-- Adds a member to the shape of its class. -/
def classMember (shape : ValueShape) : Build ValueShape :=
  match part.kind with
  | .methodDefinition => do
    let (vertex, key) ← classMethod source part scope owner
    match (part.child? .name).bind (·.staticKey? source) with
    | none => pure shape
    | some name =>
      let shape := if name = "constructor" then { shape with callable := some key } else shape
      return shape.withMember name { Binding.declared name vertex with callable := some key }
  | .fieldDefinition | .publicFieldDefinition => classField source part scope owner shape
  | _ => pure shape

/-- Resolves what a class extends. -/
def classHeritage : Build Unit :=
  n.forNamed fun part _ =>
    if part.kind = .classHeritage then part.forNamed fun base _ => expression source base scope
    else pure ()

/-! ## Compound statements -/

/-- Links what an `export` statement declares, or resolves what it lists. -/
def exportBody : Build Unit :=
  n.withChild .declaration
    (match n.child? .value with
    | some value => expression source value scope
    | none => exportedNames source n scope)
    fun declaration _ => do
      statement source declaration scope (some vertex)
      let target ← statementVertex source declaration scope
      (declaration.boundNames source).forM fun name => connect vertex target (.named .read name)

/-- Links the branches of an `if` statement. -/
def conditionalBody : Build Unit := do
  (n.child? .condition).forM fun condition => expression source condition scope
  n.onChild .consequence fun body _ => branch source body scope vertex
  n.onChild .alternative fun clause _ =>
    clause.forNamed fun body _ => branch source body scope vertex

/-- Links a case of a `switch` statement. -/
def caseBody : Build Unit := do
  (part.child? .value).forM fun value => expression source value scope
  let block ← addScope scope .block
  part.forOrderedWithout .value source fun c _ => statement source c block (some vertex)

/-- Links the cases of a `switch` statement. -/
def selectionBody : Build Unit := do
  (n.child? .value).forM fun value => expression source value scope
  n.onChild .body fun body _ => body.forNamed fun case _ => caseBody source case scope vertex

/-- Links a counted loop. -/
def countedBody : Build Unit := do
  let header ← addScope scope .block
  n.forChildrenAt .initializer fun part _ => clause source part header vertex
  n.forChildrenAt .condition fun part _ => clause source part header vertex
  n.forChildrenAt .increment fun part _ => clause source part header vertex
  n.onChild .body fun body _ => branch source body header vertex

/-- Links a loop over an object. -/
def iterationBody : Build Unit := do
  let header ← addScope scope .block
  (n.child? .right).forM fun right => expression source right scope
  iterationTarget source n scope header vertex
  n.onChild .body fun body _ => branch source body header vertex

/-- Links the handler of a `try` statement. -/
def handlerBody : Build Unit := do
  let block ← addScope scope .block
  (part.child? .parameter).forM fun parameter =>
    declareNames block (parameter.patternNames source) vertex
  part.onChild .body fun body _ =>
    body.forOrdered source fun c _ => statement source c block (some vertex)

/-- Links the parts of a `try` statement. -/
def guardedBody : Build Unit := do
  n.onChild .body fun body _ => branch source body scope vertex
  n.onChild .handler fun handler _ => handlerBody source handler scope vertex
  n.onChild .finalizer fun finalizer _ =>
    finalizer.onChild .body fun body _ => branch source body scope vertex

end DeadCode.Build

import DeadCode.Resolution.Expression

/-! # Linking statements

`Build.statement` adds a statement to the graph, relates it to the statement that owns it, and
resolves the names in it. Branches, loop bodies, cases and handlers are linked in place, each in a
block scope of its own. -/

namespace DeadCode

/-- The names a declaration binds. -/
def Node.boundNames (source : String) (n : Node) : List String :=
  match n.kind.form? with
  | some .functionDecl | some .classDecl => (n.name? source).toList
  | some .lexicalDecl | some .varDecl => n.declaratorNames source
  | _ => []

namespace Build

/-- Links a function declaration: its body is linked later, in the scope where it stands. A name
that hoisting has not made visible is declared now. -/
def functionDeclaration (source : String) (n : Node) (scope : ScopeId) (vertex : VertexId) :
    Build Unit := do
  let key ← register n scope vertex
  match n.name? source with
  | none => pure ()
  | some name =>
    if ((← get).scopes.lookup? scope name).isNone then
      declare scope { Binding.declared name vertex with callable := some key } .hoisted

/-- Links a class declaration. -/
def classDeclaration (source : String) (n : Node) (scope : ScopeId) (vertex : VertexId) :
    Build Unit := do
  let shape ← classShape source n scope vertex
  match n.name? source with
  | none => pure ()
  | some name => declare scope (shape.bind name vertex) .lexical

/-- Declares the names of a destructuring pattern; taken out of a `require` call they are imports. -/
def destructure (source : String) (pattern : Node) (value : Option Node) (scope : ScopeId)
    (vertex : VertexId) (hoist : Hoist) : Build Unit :=
  let specifier := value.bind (·.requireSource? source)
  (pattern.patternKeys source).forM fun (name, key) =>
    declare scope
      { Binding.declared name vertex with
        origin := specifier.map fun specifier => { source := specifier, name := key } }
      hoist

/-- Links one declarator: its value first, then the names it binds. A `var` name without a value
keeps the binding that hoisting gave it. -/
def declarator (source : String) (n : Node) (scope : ScopeId) (vertex : VertexId) (isVar : Bool) :
    Build Unit := do
  let hoist := if isVar then Hoist.hoisted else Hoist.lexical
  let value := n.child? .value
  value.forM fun value => expression source value scope
  match n.child? .name with
  | none => pure ()
  | some pattern =>
    if pattern.kind = .identifier then
      match pattern.text? source, value with
      | none, _ => pure ()
      | some name, some value => do
        let shape ← valueShape source value scope vertex
        declare scope (shape.bind name vertex) hoist
      | some name, none =>
        if isVar then hoistVar scope name vertex false
        else declare scope (.declared name vertex) hoist
    else
      destructure source pattern value scope vertex hoist

/-- Links a variable declaration. -/
def variableDeclaration (source : String) (n : Node) (scope : ScopeId) (vertex : VertexId)
    (isVar : Bool) : Build Unit :=
  n.declarators.forM fun d => declarator source d scope vertex isVar

/-- Resolves the names an export clause lists, unless it lists names of another module. -/
def exportedNames (source : String) (n : Node) (scope : ScopeId) : Build Unit :=
  if (n.child? .source).isSome then pure ()
  else
    (n.namedChildren.filter (·.kind = .exportClause)).forM fun clause =>
      clause.namedChildren.forM fun specifier =>
        (specifier.child? .name).forM fun name => reference source name scope .read

/-- Resolves the target of a loop over an object: a declared name lands in the scope of the loop's
header, an existing one is written. -/
def iterationTarget (source : String) (n : Node) (scope header : ScopeId) (vertex : VertexId) :
    Build Unit :=
  (n.child? .left).forM fun left =>
    match (n.child? .kind).bind (·.text? source) with
    | some "let" | some "const" => declareNames header (left.patternNames source) vertex
    | some _ => pure ()
    | none => writeTarget source left scope

/-- Resolves the names in all named children. -/
def expressions (source : String) (n : Node) (scope : ScopeId) : Build Unit :=
  n.namedChildren.forM fun c => expression source c scope

mutual

/-- Links a statement that appears in a scope and may be owned by another statement. A block is no
statement of its own: its statements are linked in a block scope, with the same owner. -/
def statement (source : String) (n : Node) (scope : ScopeId) (owner : Option VertexId) :
    Build Unit :=
  match n.kind.form? with
  | none => pure ()
  | some .block => do
    let block ← addScope scope .block
    n.forOrdered source fun c _ => statement source c block owner
  | some form => do
    let vertex ← statementVertex source n scope
    owner.forM fun owner => connect owner vertex { kind := .decl }
    match form with
    | .importDecl | .inert | .block => pure ()
    | .exportDecl =>
      n.withChild .declaration
        (match n.child? .value with
        | some value => expression source value scope
        | none => exportedNames source n scope)
        fun declaration _ => do
          statement source declaration scope (some vertex)
          let target ← statementVertex source declaration scope
          (declaration.boundNames source).forM fun name => connect vertex target (.named .read name)
    | .functionDecl => functionDeclaration source n scope vertex
    | .classDecl => classDeclaration source n scope vertex
    | .lexicalDecl => variableDeclaration source n scope vertex false
    | .varDecl => variableDeclaration source n scope vertex true
    | .conditional => do
      (n.child? .condition).forM fun condition => expression source condition scope
      n.onChild .consequence fun body _ => branch source body scope vertex
      n.onChild .alternative fun clause _ =>
        clause.forNamed fun body _ => branch source body scope vertex
    | .selection => do
      (n.child? .value).forM fun value => expression source value scope
      n.onChild .body fun body _ =>
        body.forNamed fun case _ => do
          (case.child? .value).forM fun value => expression source value scope
          let block ← addScope scope .block
          case.forOrderedWithout .value source fun c _ => statement source c block (some vertex)
    | .countedLoop => do
      let header ← addScope scope .block
      n.forChildrenAt .initializer fun part _ => clause source part header vertex
      n.forChildrenAt .condition fun part _ => clause source part header vertex
      n.forChildrenAt .increment fun part _ => clause source part header vertex
      n.onChild .body fun body _ => branch source body header vertex
    | .iteration => do
      let header ← addScope scope .block
      (n.child? .right).forM fun right => expression source right scope
      iterationTarget source n scope header vertex
      n.onChild .body fun body _ => branch source body header vertex
    | .whileLoop => do
      (n.child? .condition).forM fun condition => expression source condition scope
      n.onChild .body fun body _ => branch source body scope vertex
    | .doLoop => do
      n.onChild .body fun body _ => branch source body scope vertex
      (n.child? .condition).forM fun condition => expression source condition scope
    | .guarded => do
      n.onChild .body fun body _ => branch source body scope vertex
      n.onChild .handler fun handler _ => do
        let block ← addScope scope .block
        (handler.child? .parameter).forM fun parameter =>
          declareNames block (parameter.patternNames source) vertex
        handler.onChild .body fun body _ =>
          body.forOrdered source fun c _ => statement source c block (some vertex)
      n.onChild .finalizer fun finalizer _ =>
        finalizer.onChild .body fun body _ => branch source body scope vertex
    | .labeled => n.onChild .body fun body _ => statement source body scope (some vertex)
    | .returning => do
      noteReturn vertex
      expressions source n scope
    | .throwing | .expression => expressions source n scope
termination_by 2 * n.size

/-- Links the body of a branch or a loop in a block scope of its own. -/
def branch (source : String) (n : Node) (scope : ScopeId) (owner : VertexId) : Build Unit := do
  let block ← addScope scope .block
  if n.kind = .statementBlock then
    n.forOrdered source fun c _ => statement source c block (some owner)
  else
    statement source n block (some owner)
termination_by 2 * n.size + 1

/-- Links a part of the header of a counted loop: a declaration, or an expression, bare or as a
statement. -/
def clause (source : String) (n : Node) (scope : ScopeId) (owner : VertexId) : Build Unit :=
  match n.kind.form? with
  | some .lexicalDecl | some .varDecl => statement source n scope (some owner)
  | some _ => expressions source n scope
  | none => expression source n scope
termination_by 2 * n.size + 1

end

/-- Links the statements of a body in source order. -/
def linkBody (source : String) (body : Node) (scope : ScopeId) (owner : Option VertexId) :
    Build Unit :=
  (body.orderedChildren source).forM fun c => statement source c scope owner

end Build

end DeadCode

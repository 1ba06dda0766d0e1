import DeadCode.Resolution.State

/-! # Hoisting

Before the statements of a body are linked in order, its function declarations, `var` bindings and
imports are declared on the scope of the body, from any depth of nested blocks but not from inside
nested callables. -/

namespace DeadCode

/-- The names one part of an import clause binds, each with its name in the module imported from;
none for the module as a whole. -/
def Node.importedNames (source : String) (part : Node) : List (String × Option String) :=
  match part.kind with
  | .identifier => (part.text? source).toList.map fun name => (name, some "default")
  | .namespaceImport =>
    (part.namedChildren.filter (·.kind = .identifier)).filterMap fun c =>
      (c.text? source).map fun name => (name, none)
  | .namedImports =>
    (part.namedChildren.filter (·.kind = .importSpecifier)).filterMap fun specifier => do
      let imported ← (← specifier.child? .name).staticKey? source
      let newName? := (specifier.child? .aliased).bind (·.text? source)
      return (newName?.getD imported, some imported)
  | _ => []

/-- The names an import statement binds, each with its name in the module imported from. -/
def Node.importBindings (source : String) (n : Node) : List (String × Option String) :=
  (n.namedChildren.filter (·.kind = .importClause)).flatMap fun clause =>
    clause.namedChildren.flatMap (·.importedNames source)

namespace Build

/-- Declares the names an import statement binds. -/
def hoistImport (source : String) (n : Node) (scope : ScopeId) : Build Unit := do
  let vertex ← statementVertex source n scope
  let specifier := ((n.child? .source).bind (·.stringValue? source)).getD ""
  (n.importBindings source).forM fun (name, imported) =>
    declare scope
      { Binding.declared name vertex with origin := some { source := specifier, name := imported } }
      .hoisted

/-- Declares a function declaration that has a name, and registers it. -/
def hoistFunction (source : String) (n : Node) (scope : ScopeId) : Build Unit :=
  match n.name? source with
  | none => pure ()
  | some name => do
    let vertex ← statementVertex source n scope
    let key ← register n scope vertex
    declare scope { Binding.declared name vertex with callable := some key } .hoisted

/-- Declares the names of a `var` declaration. -/
def hoistVars (source : String) (n : Node) (scope : ScopeId) : Build Unit := do
  let vertex ← statementVertex source n scope
  n.declarators.forM fun declarator =>
    match declarator.child? .name with
    | none => pure ()
    | some pattern =>
      (pattern.patternNames source).forM fun name =>
        hoistVar scope name vertex (declarator.child? .value).isSome

/-- Declares the names of the header of a loop over `var` bindings. -/
def hoistIteration (source : String) (n : Node) (scope : ScopeId) : Build Unit := do
  if (n.child? .kind).bind (·.text? source) = some "var" then
    let vertex ← statementVertex source n scope
    match n.child? .left with
    | none => pure ()
    | some left => (left.patternNames source).forM fun name => hoistVar scope name vertex true

mutual

/-- Declares what a statement hoists to the scope of its body. Imports count only at the top level
of a file. -/
def hoistStatement (source : String) (n : Node) (scope : ScopeId) (topLevel : Bool) : Build Unit :=
  match n.kind.form? with
  | some .functionDecl => hoistFunction source n scope
  | some .varDecl => hoistVars source n scope
  | some .importDecl => if topLevel then hoistImport source n scope else pure ()
  | some .exportDecl =>
    n.onChild .declaration fun declaration _ => hoistStatement source declaration scope topLevel
  | some .iteration => do
    hoistIteration source n scope
    hoistNested source n scope
  | some .conditional | some .selection | some .countedLoop | some .whileLoop | some .doLoop
  | some .guarded | some .block | some .labeled => hoistNested source n scope
  | some .classDecl | some .lexicalDecl | some .returning | some .throwing | some .expression
  | some .inert | none => pure ()
termination_by 2 * n.size + 1

/-- Declares what the statements inside a node hoist. -/
def hoistNested (source : String) (n : Node) (scope : ScopeId) : Build Unit :=
  n.forNamed fun c _ =>
    if c.kind.form?.isSome then hoistStatement source c scope false
    else if c.kind.isClause then hoistNested source c scope
    else pure ()
termination_by 2 * n.size

end

/-- Declares what the statements of a body hoist. -/
def hoistBody (source : String) (body : Node) (scope : ScopeId) (topLevel : Bool) : Build Unit :=
  body.namedChildren.forM fun c => hoistStatement source c scope topLevel

end Build

end DeadCode

import DeadCode.Syntax.Name

/-! # Patterns

The left side of a declaration, a parameter and a destructuring assignment are patterns. A pattern
binds names (`Node.patternNames`), and a name taken straight out of an object pattern also knows the
key it is read from (`Node.patternKeys`). -/

namespace DeadCode

namespace Node

/-- The field that holds the bound part of a pattern which wraps one: the left side of a default,
the value of a pair, the pattern of a parameter with a type. -/
def wrappedPattern? : Kind → Option Field
  | .assignmentPattern | .objectAssignmentPattern => some .left
  | .pairPattern => some .value
  | .requiredParameter | .optionalParameter => some .pattern
  | _ => none

/-- The names a pattern binds, in source order. -/
def patternNames (source : String) (n : Node) : List String :=
  match n.kind with
  | .identifier | .shorthandPropertyIdentifierPattern => (n.text? source).toList
  | .objectPattern | .arrayPattern | .restPattern | .formalParameters =>
    n.namedChildren.attach.flatMap fun c => patternNames source c.1
  | kind =>
    match _h : (wrappedPattern? kind).bind n.child? with
    | some inner => patternNames source inner
    | none => []
termination_by n.size
decreasing_by
  · exact size_lt_of_mem_namedChildren c.2
  · obtain ⟨_, _, h⟩ := Option.bind_eq_some_iff.1 _h
    exact size_lt_of_child? h

/-- The names one part of an object pattern binds, each with the key it is read from. A default
value hides nothing of the key, and a nested pattern has names without keys. -/
def partKeys (source : String) (part : Node) : List (String × Option String) :=
  match part.kind with
  | .shorthandPropertyIdentifierPattern =>
    (part.text? source).toList.map fun name => (name, some name)
  | .objectAssignmentPattern =>
    ((part.child? .left).bind (·.text? source)).toList.map fun name => (name, some name)
  | .pairPattern =>
    match part.child? .value with
    | some value =>
      let key := if value.kind = .identifier then (part.child? .key).bind (·.staticKey? source)
        else none
      (value.patternNames source).map fun name => (name, key)
    | none => []
  | _ => (part.patternNames source).map fun name => (name, none)

/-- The names a pattern binds, each with the key of the object pattern it is read from, if any. -/
def patternKeys (source : String) (n : Node) : List (String × Option String) :=
  if n.kind = .objectPattern then n.namedChildren.flatMap (·.partKeys source)
  else (n.patternNames source).map fun name => (name, none)

/-! ## Declared names -/

/-- The declarators of a variable declaration. -/
def declarators (n : Node) : List Node :=
  n.namedChildren.filter (·.kind = .variableDeclarator)

/-- The names the declarators of a variable declaration bind. -/
def declaratorNames (source : String) (n : Node) : List String :=
  n.declarators.flatMap fun d => ((d.child? .name).map (·.patternNames source)).getD []

/-- The parameter list of a callable, or the one parameter of an arrow function without one. -/
def parameters? (n : Node) : Option Node :=
  if n.kind.isCallable then (n.child? .parameters).or (n.child? .parameter) else none

end Node

end DeadCode

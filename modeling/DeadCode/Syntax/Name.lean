import DeadCode.Syntax.Node
import DeadCode.Syntax.Form

/-! # Names written in the source

What a node says is the text it covers. From it come the value of a string literal, the key of a
property that is not computed, the chain of names `[base, p₁, p₂, …]` of a member expression
`base.p₁.p₂…`, the module named by a `require` call, and the names a file exposes by assigning to
`module.exports` or `exports`. -/

namespace DeadCode

namespace Node

/-- The source text a node covers. -/
def text? (source : String) (n : Node) : Option String :=
  Source.slice? source n.span

/-! ## Literals and keys -/

/-- Whether a character opens or closes a string literal. -/
def isQuote (c : Char) : Bool :=
  c = '"' || c = '\'' || c = '\x60'

/-- A text without the quotes it starts and ends with. -/
def unquote (text : List Char) : List Char :=
  ((text.dropWhile isQuote).reverse.dropWhile isQuote).reverse

/-- Whether a node is a template string with a substitution in it. -/
def isInterpolated (n : Node) : Bool :=
  n.kind = .templateString
    && n.children.any fun c => c.flags.named && c.kind = .templateSubstitution

/-- The value of a string literal, or of a template string without substitutions. -/
def stringValue? (source : String) (n : Node) : Option String :=
  if (n.kind = .stringLiteral || n.kind = .templateString) && !n.isInterpolated then
    (n.text? source).map fun text => String.ofList (unquote text.toList)
  else
    none

/-- The key a property name or a subscript stands for, unless it is computed. -/
def staticKey? (source : String) (n : Node) : Option String :=
  match n.kind with
  | .propertyIdentifier | .privatePropertyIdentifier | .shorthandPropertyIdentifier | .identifier
  | .numberLiteral => n.text? source
  | .stringLiteral => n.stringValue? source
  | _ => none

/-! ## Chains of members -/

/-- The names along a member expression, from its base on: `["a", "b"]` for `a.b` and for
`a["b"]`. There are none if the base is no name or a subscript is computed. -/
def memberChain? (source : String) (n : Node) : Option (List String) :=
  match n.kind with
  | .identifier | .thisLiteral => (n.text? source).map ([·])
  | .memberExpression =>
    n.withChild .object none fun object _ => do
      let chain ← memberChain? source object
      let property ← n.child? .property
      return chain ++ [← property.staticKey? source]
  | .subscriptExpression =>
    n.withChild .object none fun object _ => do
      let chain ← memberChain? source object
      let index ← n.child? .index
      if index.kind = .identifier then none
      else return chain ++ [← index.staticKey? source]
  | .parenthesizedExpression => n.withSole none fun inner _ => memberChain? source inner
  | _ => none
termination_by n.size

/-- The module specifier of a `require` call. -/
def requireSource? (source : String) (n : Node) : Option String := do
  guard (n.kind = .callExpression)
  let callee ← n.child? .function
  guard (callee.kind = .identifier)
  guard ((← callee.text? source) = "require")
  let arguments ← n.child? .arguments
  let specifier ← arguments.namedChildren.head?
  specifier.stringValue? source

/-! ## Exposed names -/

/-- Whether a chain is a place that other files see: `module.exports…` or `exports.…`. -/
def isExportTarget : List String → Bool
  | "module" :: "exports" :: _ => true
  | "exports" :: _ :: _ => true
  | _ => false

/-- The assignment an expression statement consists of. -/
def assignment? (n : Node) : Option Node :=
  n.namedChildren.head?.filter (·.kind = .assignmentExpression)

/-- Whether a statement exposes something outside its file. -/
def isTerminal (source : String) (n : Node) : Bool :=
  match n.kind with
  | .exportStatement => true
  | .expressionStatement =>
    (n.assignment?.bind (·.child? .left)).bind (·.memberChain? source) |>.any isExportTarget
  | _ => false

/-- The text of the child under the field `name`. -/
def name? (source : String) (n : Node) : Option String :=
  (n.child? .name).bind (·.text? source)

end Node

end DeadCode

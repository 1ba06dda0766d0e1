import DeadCode.Syntax.Kind

/-! # Forms of statements

The grammar has many kinds of statements; the analysis treats them by their `Form`. A kind without
a form is no statement. Callables are the kinds of nodes that a call can run, classes included. -/

namespace DeadCode

/-- The forms of statements. -/
inductive Form where
  /-- An `import` statement. -/
  | importDecl
  /-- An `export` statement. -/
  | exportDecl
  /-- A function declaration. -/
  | functionDecl
  /-- A class declaration. -/
  | classDecl
  /-- A `let` or `const` declaration. -/
  | lexicalDecl
  /-- A `var` declaration. -/
  | varDecl
  /-- An `if` statement. -/
  | conditional
  /-- A `switch` statement. -/
  | selection
  /-- A `for` loop with a header of three clauses. -/
  | countedLoop
  /-- A `for` loop over the keys or values of an object. -/
  | iteration
  /-- A `while` loop. -/
  | whileLoop
  /-- A `do` loop. -/
  | doLoop
  /-- A `try` statement. -/
  | guarded
  /-- A block of statements. -/
  | block
  /-- A `return` statement. -/
  | returning
  /-- A `throw` statement. -/
  | throwing
  /-- A statement with a label. -/
  | labeled
  /-- An expression as a statement. -/
  | expression
  /-- A statement that refers to nothing. -/
  | inert
deriving DecidableEq, Inhabited, Repr

/-- Whether statements of a form introduce bindings. -/
def Form.isDeclaration : Form → Bool
  | importDecl | functionDecl | classDecl | lexicalDecl | varDecl => true
  | _ => false

namespace Kind

/-- The form of a kind of statement. -/
def form? : Kind → Option Form
  | importStatement => some .importDecl
  | exportStatement => some .exportDecl
  | functionDeclaration | generatorFunctionDeclaration => some .functionDecl
  | classDeclaration | abstractClassDeclaration => some .classDecl
  | lexicalDeclaration => some .lexicalDecl
  | variableDeclaration => some .varDecl
  | ifStatement => some .conditional
  | switchStatement => some .selection
  | forStatement => some .countedLoop
  | forInStatement => some .iteration
  | whileStatement => some .whileLoop
  | doStatement => some .doLoop
  | tryStatement => some .guarded
  | statementBlock => some .block
  | returnStatement => some .returning
  | throwStatement => some .throwing
  | labeledStatement => some .labeled
  | expressionStatement => some .expression
  | breakStatement | continueStatement | debuggerStatement | emptyStatement | withStatement
  | typeAliasDeclaration | interfaceDeclaration | enumDeclaration | ambientDeclaration
  | moduleDeclaration | internalModule => some .inert
  | _ => none

/-- Whether a kind is that of a declaration. -/
def isDeclaration (kind : Kind) : Bool :=
  kind.form?.any Form.isDeclaration

/-- Whether a kind is that of a class. -/
def isClass : Kind → Bool
  | classDeclaration | abstractClassDeclaration | classLiteral => true
  | _ => false

/-- Whether a kind is that of a function written as an expression with a `this` of its own. -/
def isFunctionLiteral : Kind → Bool
  | functionExpression | functionLiteral | generatorFunction => true
  | _ => false

/-- Whether a kind is that of something a call can run. -/
def isCallable : Kind → Bool
  | functionDeclaration | generatorFunctionDeclaration | functionExpression | functionLiteral
  | generatorFunction | arrowFunction | methodDefinition | classDeclaration
  | abstractClassDeclaration | classLiteral => true
  | _ => false

/-- Whether a kind is that of a clause whose statements belong to the statement around it. -/
def isClause : Kind → Bool
  | elseClause | switchBody | switchCase | switchDefault | catchClause | finallyClause => true
  | _ => false

end Kind

end DeadCode

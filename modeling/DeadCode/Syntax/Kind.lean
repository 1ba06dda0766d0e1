/-! # Node kinds and field names

Every node of a concrete syntax tree carries a kind, and hangs in its parent under a field or under
none. `Kind` lists the kinds the analysis tells apart; all others, tokens among them, are kept by
name in `Kind.other`. `Field` does the same for field names. -/

namespace DeadCode

/-- The kind of a syntax node. -/
inductive Kind where
  -- Statements.
  | importStatement | exportStatement | functionDeclaration | generatorFunctionDeclaration
  | classDeclaration | abstractClassDeclaration | lexicalDeclaration | variableDeclaration
  | ifStatement | switchStatement | forStatement | forInStatement | whileStatement | doStatement
  | tryStatement | statementBlock | returnStatement | throwStatement | labeledStatement
  | expressionStatement | breakStatement | continueStatement | debuggerStatement | emptyStatement
  | withStatement | typeAliasDeclaration | interfaceDeclaration | enumDeclaration
  | ambientDeclaration | moduleDeclaration | internalModule
  -- Callables and classes in expression position, and methods.
  | functionExpression | functionLiteral | generatorFunction | arrowFunction | methodDefinition
  | classLiteral
  -- Names.
  | identifier | propertyIdentifier | privatePropertyIdentifier | shorthandPropertyIdentifier
  | shorthandPropertyIdentifierPattern | statementIdentifier | thisLiteral | superLiteral
  -- Literals and what they consist of.
  | stringLiteral | templateString | templateSubstitution | stringFragment | escapeSequence
  | numberLiteral | regexLiteral | trueLiteral | falseLiteral | nullLiteral | undefinedLiteral
  -- Expressions.
  | memberExpression | subscriptExpression | parenthesizedExpression | callExpression
  | newExpression | assignmentExpression | augmentedAssignmentExpression | updateExpression
  | unaryExpression | objectLiteral | pair | computedPropertyName
  -- Patterns and parameters.
  | assignmentPattern | objectAssignmentPattern | pairPattern | objectPattern | arrayPattern
  | restPattern | requiredParameter | optionalParameter | formalParameters
  -- Parts of statements and classes.
  | elseClause | switchBody | switchCase | switchDefault | catchClause | finallyClause
  | variableDeclarator | importClause | namespaceImport | namedImports | importSpecifier
  | exportClause | namespaceExport | classHeritage | fieldDefinition | publicFieldDefinition
  -- What stands outside the grammar of statements, and two tokens.
  | comment | defaultToken | importToken
  -- Any other kind, by its name.
  | other (name : String)
deriving DecidableEq, Inhabited, Repr

namespace Kind

/-- The name of a kind. -/
def name : Kind → String
  | importStatement => "import_statement"
  | exportStatement => "export_statement"
  | functionDeclaration => "function_declaration"
  | generatorFunctionDeclaration => "generator_function_declaration"
  | classDeclaration => "class_declaration"
  | abstractClassDeclaration => "abstract_class_declaration"
  | lexicalDeclaration => "lexical_declaration"
  | variableDeclaration => "variable_declaration"
  | ifStatement => "if_statement"
  | switchStatement => "switch_statement"
  | forStatement => "for_statement"
  | forInStatement => "for_in_statement"
  | whileStatement => "while_statement"
  | doStatement => "do_statement"
  | tryStatement => "try_statement"
  | statementBlock => "statement_block"
  | returnStatement => "return_statement"
  | throwStatement => "throw_statement"
  | labeledStatement => "labeled_statement"
  | expressionStatement => "expression_statement"
  | breakStatement => "break_statement"
  | continueStatement => "continue_statement"
  | debuggerStatement => "debugger_statement"
  | emptyStatement => "empty_statement"
  | withStatement => "with_statement"
  | typeAliasDeclaration => "type_alias_declaration"
  | interfaceDeclaration => "interface_declaration"
  | enumDeclaration => "enum_declaration"
  | ambientDeclaration => "ambient_declaration"
  | moduleDeclaration => "module"
  | internalModule => "internal_module"
  | functionExpression => "function_expression"
  | functionLiteral => "function"
  | generatorFunction => "generator_function"
  | arrowFunction => "arrow_function"
  | methodDefinition => "method_definition"
  | classLiteral => "class"
  | identifier => "identifier"
  | propertyIdentifier => "property_identifier"
  | privatePropertyIdentifier => "private_property_identifier"
  | shorthandPropertyIdentifier => "shorthand_property_identifier"
  | shorthandPropertyIdentifierPattern => "shorthand_property_identifier_pattern"
  | statementIdentifier => "statement_identifier"
  | thisLiteral => "this"
  | superLiteral => "super"
  | stringLiteral => "string"
  | templateString => "template_string"
  | templateSubstitution => "template_substitution"
  | stringFragment => "string_fragment"
  | escapeSequence => "escape_sequence"
  | numberLiteral => "number"
  | regexLiteral => "regex"
  | trueLiteral => "true"
  | falseLiteral => "false"
  | nullLiteral => "null"
  | undefinedLiteral => "undefined"
  | memberExpression => "member_expression"
  | subscriptExpression => "subscript_expression"
  | parenthesizedExpression => "parenthesized_expression"
  | callExpression => "call_expression"
  | newExpression => "new_expression"
  | assignmentExpression => "assignment_expression"
  | augmentedAssignmentExpression => "augmented_assignment_expression"
  | updateExpression => "update_expression"
  | unaryExpression => "unary_expression"
  | objectLiteral => "object"
  | pair => "pair"
  | computedPropertyName => "computed_property_name"
  | assignmentPattern => "assignment_pattern"
  | objectAssignmentPattern => "object_assignment_pattern"
  | pairPattern => "pair_pattern"
  | objectPattern => "object_pattern"
  | arrayPattern => "array_pattern"
  | restPattern => "rest_pattern"
  | requiredParameter => "required_parameter"
  | optionalParameter => "optional_parameter"
  | formalParameters => "formal_parameters"
  | elseClause => "else_clause"
  | switchBody => "switch_body"
  | switchCase => "switch_case"
  | switchDefault => "switch_default"
  | catchClause => "catch_clause"
  | finallyClause => "finally_clause"
  | variableDeclarator => "variable_declarator"
  | importClause => "import_clause"
  | namespaceImport => "namespace_import"
  | namedImports => "named_imports"
  | importSpecifier => "import_specifier"
  | exportClause => "export_clause"
  | namespaceExport => "namespace_export"
  | classHeritage => "class_heritage"
  | fieldDefinition => "field_definition"
  | publicFieldDefinition => "public_field_definition"
  | comment => "comment"
  | defaultToken => "default"
  | importToken => "import"
  | other name => name

/-- The kind of a name. -/
def ofName : String → Kind
  | "import_statement" => importStatement
  | "export_statement" => exportStatement
  | "function_declaration" => functionDeclaration
  | "generator_function_declaration" => generatorFunctionDeclaration
  | "class_declaration" => classDeclaration
  | "abstract_class_declaration" => abstractClassDeclaration
  | "lexical_declaration" => lexicalDeclaration
  | "variable_declaration" => variableDeclaration
  | "if_statement" => ifStatement
  | "switch_statement" => switchStatement
  | "for_statement" => forStatement
  | "for_in_statement" => forInStatement
  | "while_statement" => whileStatement
  | "do_statement" => doStatement
  | "try_statement" => tryStatement
  | "statement_block" => statementBlock
  | "return_statement" => returnStatement
  | "throw_statement" => throwStatement
  | "labeled_statement" => labeledStatement
  | "expression_statement" => expressionStatement
  | "break_statement" => breakStatement
  | "continue_statement" => continueStatement
  | "debugger_statement" => debuggerStatement
  | "empty_statement" => emptyStatement
  | "with_statement" => withStatement
  | "type_alias_declaration" => typeAliasDeclaration
  | "interface_declaration" => interfaceDeclaration
  | "enum_declaration" => enumDeclaration
  | "ambient_declaration" => ambientDeclaration
  | "module" => moduleDeclaration
  | "internal_module" => internalModule
  | "function_expression" => functionExpression
  | "function" => functionLiteral
  | "generator_function" => generatorFunction
  | "arrow_function" => arrowFunction
  | "method_definition" => methodDefinition
  | "class" => classLiteral
  | "identifier" => identifier
  | "property_identifier" => propertyIdentifier
  | "private_property_identifier" => privatePropertyIdentifier
  | "shorthand_property_identifier" => shorthandPropertyIdentifier
  | "shorthand_property_identifier_pattern" => shorthandPropertyIdentifierPattern
  | "statement_identifier" => statementIdentifier
  | "this" => thisLiteral
  | "super" => superLiteral
  | "string" => stringLiteral
  | "template_string" => templateString
  | "template_substitution" => templateSubstitution
  | "string_fragment" => stringFragment
  | "escape_sequence" => escapeSequence
  | "number" => numberLiteral
  | "regex" => regexLiteral
  | "true" => trueLiteral
  | "false" => falseLiteral
  | "null" => nullLiteral
  | "undefined" => undefinedLiteral
  | "member_expression" => memberExpression
  | "subscript_expression" => subscriptExpression
  | "parenthesized_expression" => parenthesizedExpression
  | "call_expression" => callExpression
  | "new_expression" => newExpression
  | "assignment_expression" => assignmentExpression
  | "augmented_assignment_expression" => augmentedAssignmentExpression
  | "update_expression" => updateExpression
  | "unary_expression" => unaryExpression
  | "object" => objectLiteral
  | "pair" => pair
  | "computed_property_name" => computedPropertyName
  | "assignment_pattern" => assignmentPattern
  | "object_assignment_pattern" => objectAssignmentPattern
  | "pair_pattern" => pairPattern
  | "object_pattern" => objectPattern
  | "array_pattern" => arrayPattern
  | "rest_pattern" => restPattern
  | "required_parameter" => requiredParameter
  | "optional_parameter" => optionalParameter
  | "formal_parameters" => formalParameters
  | "else_clause" => elseClause
  | "switch_body" => switchBody
  | "switch_case" => switchCase
  | "switch_default" => switchDefault
  | "catch_clause" => catchClause
  | "finally_clause" => finallyClause
  | "variable_declarator" => variableDeclarator
  | "import_clause" => importClause
  | "namespace_import" => namespaceImport
  | "named_imports" => namedImports
  | "import_specifier" => importSpecifier
  | "export_clause" => exportClause
  | "namespace_export" => namespaceExport
  | "class_heritage" => classHeritage
  | "field_definition" => fieldDefinition
  | "public_field_definition" => publicFieldDefinition
  | "comment" => comment
  | "default" => defaultToken
  | "import" => importToken
  | name => other name

end Kind

/-- The field under which a node hangs in its parent. -/
inductive Field where
  | name | body | value | left | right | kind | declaration | source | aliased | condition
  | consequence | alternative | initializer | increment | handler | finalizer | parameter
  | parameters | key | property | object | index | function | constructor | arguments | argument
  | operator | pattern
  | other (label : String)
deriving DecidableEq, Inhabited, Repr

namespace Field

/-- The name of a field. -/
def label : Field → String
  | name => "name"
  | body => "body"
  | value => "value"
  | left => "left"
  | right => "right"
  | kind => "kind"
  | declaration => "declaration"
  | source => "source"
  | aliased => "alias"
  | condition => "condition"
  | consequence => "consequence"
  | alternative => "alternative"
  | initializer => "initializer"
  | increment => "increment"
  | handler => "handler"
  | finalizer => "finalizer"
  | parameter => "parameter"
  | parameters => "parameters"
  | key => "key"
  | property => "property"
  | object => "object"
  | index => "index"
  | function => "function"
  | constructor => "constructor"
  | arguments => "arguments"
  | argument => "argument"
  | operator => "operator"
  | pattern => "pattern"
  | other label => label

/-- The field of a name. -/
def ofLabel : String → Field
  | "name" => name
  | "body" => body
  | "value" => value
  | "left" => left
  | "right" => right
  | "kind" => kind
  | "declaration" => declaration
  | "source" => source
  | "alias" => aliased
  | "condition" => condition
  | "consequence" => consequence
  | "alternative" => alternative
  | "initializer" => initializer
  | "increment" => increment
  | "handler" => handler
  | "finalizer" => finalizer
  | "parameter" => parameter
  | "parameters" => parameters
  | "key" => key
  | "property" => property
  | "object" => object
  | "index" => index
  | "function" => function
  | "constructor" => constructor
  | "arguments" => arguments
  | "argument" => argument
  | "operator" => operator
  | "pattern" => pattern
  | label => other label

end Field

end DeadCode

/-!
# Kinds of syntax

The kinds of node in a syntax tree of Java, the roles that a node can play in its parent, and the
phrase by which a kind is called in messages.
-/

set_option autoImplicit false

namespace MonoTap.Java

/-- What a named node of a syntax tree is. The last two stand where the text is no Java: `error`
for text that fits nowhere and `missing` for a token that is not there. -/
inductive Kind where
  | decimalIntegerLiteral | hexIntegerLiteral | octalIntegerLiteral | binaryIntegerLiteral
  | decimalFloatingPointLiteral | hexFloatingPointLiteral | trueLiteral | falseLiteral
  | characterLiteral | stringLiteral | nullLiteral
  | identifier | this | super | assignmentExpression | binaryExpression | instanceofExpression
  | lambdaExpression | ternaryExpression | unaryExpression | updateExpression | castExpression
  | switchExpression | classLiteral | parenthesizedExpression | objectCreationExpression
  | fieldAccess | arrayAccess | methodInvocation | methodReference | arrayCreationExpression
  | argumentList | typeArguments | wildcard | inferredParameters | dimensionsExpr | dimensions
  | arrayInitializer
  | typeIdentifier | scopedTypeIdentifier | genericType | annotatedType | arrayType
  | integralType | floatingPointType | booleanType | voidType
  | block | expressionStatement | labeledStatement | ifStatement | whileStatement | forStatement
  | enhancedForStatement | doStatement | assertStatement | breakStatement | continueStatement
  | returnStatement | yieldStatement | synchronizedStatement | throwStatement | tryStatement
  | tryWithResourcesStatement | localVariableDeclaration
  | catchClause | catchFormalParameter | catchType | finallyClause | resourceSpecification
  | resource | variableDeclarator | switchBlock | switchBlockStatementGroup | switchRule
  | switchLabel | pattern | typePattern | recordPattern | recordPatternBody
  | recordPatternComponent | underscorePattern | guard
  | packageDeclaration | importDeclaration | moduleDeclaration | classDeclaration
  | interfaceDeclaration | enumDeclaration | recordDeclaration | annotationTypeDeclaration
  | methodDeclaration | constructorDeclaration | compactConstructorDeclaration | fieldDeclaration
  | constantDeclaration | annotationTypeElementDeclaration | staticInitializer | enumConstant
  | explicitConstructorInvocation
  | scopedIdentifier | asterisk | modifiers | annotationMarker | annotationCall
  | annotationArgumentList | elementValuePair | elementValueArrayInitializer | typeParameters
  | typeParameter | typeBound | superclass | superInterfaces | extendsInterfaces | permits
  | typeList | throws | formalParameters | formalParameter | spreadParameter | receiverParameter
  | classBody | interfaceBody | enumBody | enumBodyDeclarations | annotationTypeBody
  | constructorBody | moduleBody | requiresModuleDirective | exportsModuleDirective
  | opensModuleDirective | usesModuleDirective | providesModuleDirective | requiresModifier
  | program | lineComment | blockComment | error | missing
  deriving DecidableEq, Repr

/-- The part that a node plays in its parent. -/
inductive Role where
  | object | field | name | arguments | typeArguments | body | parameters | type | declarator
  | value
  | left | right | operator | operand | pattern | condition | consequence | alternative | init
  | update | resources | element | dimensions | superclass | interfaces | permits | typeParameters
  | scope | key | constructor | array | index
  deriving DecidableEq, Repr

/-- The kind in words, as messages name it. -/
def Kind.phrase : Kind → String
  | .decimalIntegerLiteral => "decimal integer literal"
  | .hexIntegerLiteral => "hex integer literal"
  | .octalIntegerLiteral => "octal integer literal"
  | .binaryIntegerLiteral => "binary integer literal"
  | .decimalFloatingPointLiteral => "decimal floating point literal"
  | .hexFloatingPointLiteral => "hex floating point literal"
  | .trueLiteral => "true"
  | .falseLiteral => "false"
  | .characterLiteral => "character literal"
  | .stringLiteral => "string literal"
  | .nullLiteral => "null literal"
  | .identifier => "identifier"
  | .this => "this"
  | .super => "super"
  | .assignmentExpression => "assignment expression"
  | .binaryExpression => "binary expression"
  | .instanceofExpression => "instanceof expression"
  | .lambdaExpression => "lambda expression"
  | .ternaryExpression => "ternary expression"
  | .unaryExpression => "unary expression"
  | .updateExpression => "update expression"
  | .castExpression => "cast expression"
  | .switchExpression => "switch expression"
  | .classLiteral => "class literal"
  | .parenthesizedExpression => "parenthesized expression"
  | .objectCreationExpression => "object creation expression"
  | .fieldAccess => "field access"
  | .arrayAccess => "array access"
  | .methodInvocation => "method invocation"
  | .methodReference => "method reference"
  | .arrayCreationExpression => "array creation expression"
  | .argumentList => "argument list"
  | .typeArguments => "type arguments"
  | .wildcard => "wildcard"
  | .inferredParameters => "inferred parameters"
  | .dimensionsExpr => "dimensions expr"
  | .dimensions => "dimensions"
  | .arrayInitializer => "array initializer"
  | .typeIdentifier => "type identifier"
  | .scopedTypeIdentifier => "scoped type identifier"
  | .genericType => "generic type"
  | .annotatedType => "annotated type"
  | .arrayType => "array type"
  | .integralType => "integral type"
  | .floatingPointType => "floating point type"
  | .booleanType => "boolean type"
  | .voidType => "void type"
  | .block => "block"
  | .expressionStatement => "expression statement"
  | .labeledStatement => "labeled statement"
  | .ifStatement => "if statement"
  | .whileStatement => "while statement"
  | .forStatement => "for statement"
  | .enhancedForStatement => "enhanced for statement"
  | .doStatement => "do statement"
  | .assertStatement => "assert statement"
  | .breakStatement => "break statement"
  | .continueStatement => "continue statement"
  | .returnStatement => "return statement"
  | .yieldStatement => "yield statement"
  | .synchronizedStatement => "synchronized statement"
  | .throwStatement => "throw statement"
  | .tryStatement => "try statement"
  | .tryWithResourcesStatement => "try with resources statement"
  | .localVariableDeclaration => "local variable declaration"
  | .catchClause => "catch clause"
  | .catchFormalParameter => "catch formal parameter"
  | .catchType => "catch type"
  | .finallyClause => "finally clause"
  | .resourceSpecification => "resource specification"
  | .resource => "resource"
  | .variableDeclarator => "variable declarator"
  | .switchBlock => "switch block"
  | .switchBlockStatementGroup => "switch block statement group"
  | .switchRule => "switch rule"
  | .switchLabel => "switch label"
  | .pattern => "pattern"
  | .typePattern => "type pattern"
  | .recordPattern => "record pattern"
  | .recordPatternBody => "record pattern body"
  | .recordPatternComponent => "record pattern component"
  | .underscorePattern => "underscore pattern"
  | .guard => "guard"
  | .packageDeclaration => "package declaration"
  | .importDeclaration => "import declaration"
  | .moduleDeclaration => "module declaration"
  | .classDeclaration => "class declaration"
  | .interfaceDeclaration => "interface declaration"
  | .enumDeclaration => "enum declaration"
  | .recordDeclaration => "record declaration"
  | .annotationTypeDeclaration => "annotation type declaration"
  | .methodDeclaration => "method declaration"
  | .constructorDeclaration => "constructor declaration"
  | .compactConstructorDeclaration => "compact constructor declaration"
  | .fieldDeclaration => "field declaration"
  | .constantDeclaration => "constant declaration"
  | .annotationTypeElementDeclaration => "annotation type element declaration"
  | .staticInitializer => "static initializer"
  | .enumConstant => "enum constant"
  | .explicitConstructorInvocation => "explicit constructor invocation"
  | .scopedIdentifier => "scoped identifier"
  | .asterisk => "asterisk"
  | .modifiers => "modifiers"
  | .annotationMarker => "marker annotation"
  | .annotationCall => "annotation"
  | .annotationArgumentList => "annotation argument list"
  | .elementValuePair => "element value pair"
  | .elementValueArrayInitializer => "element value array initializer"
  | .typeParameters => "type parameters"
  | .typeParameter => "type parameter"
  | .typeBound => "type bound"
  | .superclass => "superclass"
  | .superInterfaces => "super interfaces"
  | .extendsInterfaces => "extends interfaces"
  | .permits => "permits"
  | .typeList => "type list"
  | .throws => "throws"
  | .formalParameters => "formal parameters"
  | .formalParameter => "formal parameter"
  | .spreadParameter => "spread parameter"
  | .receiverParameter => "receiver parameter"
  | .classBody => "class body"
  | .interfaceBody => "interface body"
  | .enumBody => "enum body"
  | .enumBodyDeclarations => "enum body declarations"
  | .annotationTypeBody => "annotation type body"
  | .constructorBody => "constructor body"
  | .moduleBody => "module body"
  | .requiresModuleDirective => "requires module directive"
  | .exportsModuleDirective => "exports module directive"
  | .opensModuleDirective => "opens module directive"
  | .usesModuleDirective => "uses module directive"
  | .providesModuleDirective => "provides module directive"
  | .requiresModifier => "requires modifier"
  | .program => "program"
  | .lineComment => "line comment"
  | .blockComment => "block comment"
  | .error => "ERROR"
  | .missing => "missing"

/-- Whether nodes of this kind are comments. -/
def Kind.isComment : Kind → Bool
  | .lineComment | .blockComment => true
  | _ => false

end MonoTap.Java

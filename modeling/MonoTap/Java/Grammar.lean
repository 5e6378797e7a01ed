import MonoTap.Java.Rule

/-!
# The grammar of Java

The rules by which tokens make up a compilation unit. Constructs that contain themselves refer to
each other through symbols; everything else is a rule of its own. Where two constructs begin alike
the order of the choices decides: a declaration comes before an expression, a lambda before a cast,
a cast before a parenthesis.
-/

set_option autoImplicit false

namespace MonoTap.Java

/-- The constructs that may contain themselves. -/
inductive Symbol where
  | expression | conditional | unary | type | plainType | annotationUse | elementValue | initializer
  | recordPattern | block | statement | typeDeclaration | classBody
  deriving DecidableEq, Repr

namespace Grammar

open Rule

/-- Rules one after the other. -/
def all : List (Rule Symbol) → Rule Symbol
  | [] => .empty
  | [r] => r
  | r :: rs => .seq r (all rs)

/-- The first rule that matches. -/
def any : List (Rule Symbol) → Rule Symbol
  | [] => .unless .empty
  | [r] => r
  | r :: rs => .alt r (any rs)

/-- The bare token with the given text. -/
def tok (text : String) : Rule Symbol := .token [text]

/-- The rule, or nothing. -/
def opt (r : Rule Symbol) : Rule Symbol := .alt r .empty

/-- The rule once or more. -/
def some' (r : Rule Symbol) : Rule Symbol := .seq r (.many r)

/-- The rule once or more, with a token between neighbours. -/
def sep (text : String) (r : Rule Symbol) : Rule Symbol := .seq r (.many (.seq (tok text) r))

/-- The rule any number of times, with commas between neighbours. -/
def commas (r : Rule Symbol) : Rule Symbol := opt (sep "," r)

/-- A name in an expression or a declaration. -/
def identifier : Rule Symbol := .name .identifier

/-- The name of a type. -/
def typeIdentifier : Rule Symbol := .name .typeIdentifier

/-- The keyword for the current object. -/
def this : Rule Symbol := .leaf "this" .this

/-- The keyword for the superclass. -/
def super : Rule Symbol := .leaf "super" .super

/-- A name with dots. -/
def qualifiedName : Rule Symbol :=
  .chain identifier
    (.node .scopedIdentifier (all [.field .scope .left, tok ".", .field .name identifier]))

/-! ### Types -/

/-- Any number of annotations. -/
def annotations : Rule Symbol := .many (.ref .annotationUse)

/-- Pairs of brackets after a type or a name. -/
def dimensions : Rule Symbol := .node .dimensions (some' (all [annotations, tok "[", tok "]"]))

/-- A type argument that stands for an unknown type. -/
def wildcard : Rule Symbol :=
  .node .wildcard (all [annotations, tok "?",
    opt (any [all [tok "extends", .ref .type], all [super, .ref .type]])])

/-- Type arguments in angle brackets; there may be none. -/
def typeArguments : Rule Symbol :=
  .node .typeArguments (all [tok "<", commas (any [.ref .type, wildcard]), tok ">"])

/-- The named types, possibly with type arguments. -/
def namedType : Rule Symbol :=
  .chain typeIdentifier (any [
    .node .scopedTypeIdentifier (all [.left, tok ".", annotations, typeIdentifier]),
    .node .genericType (all [.left, typeArguments])])

/-- The primitive types. -/
def primitiveType : Rule Symbol :=
  any ((["byte", "short", "int", "long", "char"].map fun w => .leaf w .integralType) ++
    (["float", "double"].map fun w => .leaf w .floatingPointType) ++
    [.leaf "boolean" .booleanType])

/-- Types other than arrays. -/
def simpleType : Rule Symbol := any [.leaf "void" .voidType, primitiveType, namedType]

/-- Types without annotations of their own. -/
def plainType : Rule Symbol :=
  .chain simpleType
    (.node .arrayType (all [.field .element .left, .field .dimensions dimensions]))

/-- Types. -/
def type : Rule Symbol :=
  .alt (.node .annotatedType (all [some' (.ref .annotationUse), .ref .plainType])) (.ref .plainType)

/-- A bound of a type parameter. -/
def typeBound : Rule Symbol := .node .typeBound (all [tok "extends", sep "&" (.ref .type)])

/-- Type parameters in angle brackets. -/
def typeParameters : Rule Symbol :=
  .node .typeParameters (all [tok "<",
    sep "," (.node .typeParameter (all [annotations, typeIdentifier, opt typeBound])), tok ">"])

/-! ### Annotations and modifiers -/

/-- Annotations. -/
def annotationUse : Rule Symbol :=
  .alt
    (.node .annotationCall (all [tok "@", .field .name qualifiedName,
      .field .arguments (.node .annotationArgumentList (all [tok "(",
        any [
          all [sep "," (.node .elementValuePair (all [.field .key identifier, tok "=",
            .field .value (.ref .elementValue)])), tok ")"],
          all [opt (.ref .elementValue), tok ")"]]]))]))
    (.node .annotationMarker (all [tok "@", .field .name qualifiedName]))

/-- The value of an element of an annotation. -/
def elementValue : Rule Symbol :=
  any [
    .node .elementValueArrayInitializer
      (all [tok "\x7b", commas (.ref .elementValue), opt (tok ","), tok "\x7d"]),
    .ref .annotationUse,
    .ref .expression]

/-- The words that modify a declaration. -/
def modifierWords : List String :=
  ["public", "protected", "private", "abstract", "static", "final", "strictfp", "default",
    "synchronized", "native", "transient", "volatile", "sealed"]

/-- Modifiers, annotations among them. -/
def modifiers : Rule Symbol :=
  .node .modifiers (some' (any (.ref .annotationUse ::
    (modifierWords.map tok ++ [.token ["non", "-", "sealed"]]))))

/-! ### Variables and parameters -/

/-- The name of a variable, with brackets if it is an array. -/
def declaratorId : Rule Symbol :=
  all [.field .name identifier, opt (.field .dimensions dimensions)]

/-- A variable with its initial value. -/
def declarator : Rule Symbol :=
  .node .variableDeclarator
    (all [declaratorId, opt (all [tok "=", .field .value (.ref .initializer)])])

/-- Variables of one type. -/
def declarators : Rule Symbol := sep "," (.field .declarator declarator)

/-- An initial value. -/
def initializer : Rule Symbol :=
  .alt
    (.node .arrayInitializer
      (all [tok "\x7b", commas (.ref .initializer), opt (tok ","), tok "\x7d"]))
    (.ref .expression)

/-- A typed declaration of variables that ends in a semicolon. -/
def variableDeclaration (k : Kind) : Rule Symbol :=
  .node k (all [opt modifiers, .field .type (.ref .plainType), declarators, tok ";"])

/-- A parameter. -/
def parameter : Rule Symbol :=
  any [
    .node .spreadParameter
      (all [opt modifiers, .ref .plainType, tok "...", annotations, declarator]),
    .node .formalParameter (all [opt modifiers, .field .type (.ref .plainType), declaratorId])]

/-- The parameter that names the current object. -/
def receiverParameter : Rule Symbol :=
  .node .receiverParameter
    (all [annotations, .ref .plainType, .many (all [identifier, tok "."]), this])

/-- Typed parameters in parentheses. -/
def formalParameters : Rule Symbol :=
  .node .formalParameters (all [tok "(",
    any [all [receiverParameter, .many (all [tok ",", parameter])], commas parameter], tok ")"])

/-! ### Expressions -/

/-- Arguments in parentheses. -/
def arguments : Rule Symbol :=
  .node .argumentList (all [tok "(", commas (.ref .expression), tok ")"])

/-- An expression in parentheses. -/
def parenthesized : Rule Symbol :=
  .node .parenthesizedExpression (all [tok "(", .ref .expression, tok ")"])

/-- A lambda. -/
def lambda : Rule Symbol :=
  .node .lambdaExpression (all [
    .field .parameters (any [identifier,
      .node .inferredParameters (all [tok "(", sep "," identifier, tok ")"]), formalParameters]),
    tok "->",
    .field .body (any [.ref .block, .ref .expression])])

/-- The creation of an object, from the keyword on. -/
def creation : Rule Symbol :=
  all [tok "new", annotations, opt (all [.field .typeArguments typeArguments, annotations]),
    .field .type simpleType, .field .arguments arguments, opt (.ref .classBody)]

/-- The creation of an array. -/
def arrayCreation : Rule Symbol :=
  .node .arrayCreationExpression (all [tok "new", annotations, .field .type simpleType,
    any [
      all [
        .field .dimensions (some' (.node .dimensionsExpr
          (all [annotations, tok "[", .ref .expression, tok "]"]))),
        opt (.field .dimensions dimensions)],
      all [.field .dimensions dimensions, .field .value (.ref .initializer)]]])

/-- A label or a group of labels of a switch. -/
def switchLabel : Rule Symbol :=
  .node .switchLabel (any [
    all [tok "case",
      any [
        .node .pattern (any [.ref .recordPattern,
          .node .typePattern (all [.ref .plainType, identifier])]),
        sep "," (any [.ref .conditional, .leaf "default" .identifier])],
      opt (.node .guard (all [tok "when", .ref .conditional]))],
    tok "default"])

/-- The statement that throws. -/
def throwStatement : Rule Symbol :=
  .node .throwStatement (all [tok "throw", .ref .expression, tok ";"])

/-- An expression used as a statement. -/
def expressionStatement : Rule Symbol :=
  .node .expressionStatement (all [.ref .expression, tok ";"])

/-- A switch, with arrows or with colons. -/
def switch : Rule Symbol :=
  .node .switchExpression (all [tok "switch", .field .condition parenthesized,
    .field .body (.node .switchBlock (all [tok "\x7b",
      any [
        all [
          some' (.node .switchRule (all [switchLabel, tok "->",
            any [.ref .block, throwStatement, expressionStatement]])),
          tok "\x7d"],
        all [
          .many (.node .switchBlockStatementGroup
            (all [some' (all [switchLabel, tok ":"]), .many (.ref .statement)])),
          tok "\x7d"]]]))])

/-- A reference to a method of a type that is not a plain name. -/
def typeMethodReference : Rule Symbol :=
  all [
    .unless (all [identifier, .many (all [tok ".", identifier]), tok "::"]),
    .node .methodReference
      (all [.ref .plainType, tok "::", opt typeArguments, any [tok "new", identifier]])]

/-- Where a primary expression begins. -/
def primaryBase : Rule Symbol :=
  any [
    .literal, .leaf "true" .trueLiteral, .leaf "false" .falseLiteral, .leaf "null" .nullLiteral,
    switch, parenthesized,
    .node .objectCreationExpression creation, arrayCreation,
    .node .classLiteral (all [.ref .plainType, tok ".", tok "class"]),
    typeMethodReference,
    .node .methodInvocation (all [.field .name identifier, .field .arguments arguments]),
    this, super, identifier]

/-- How a primary expression goes on. -/
def primarySuffix : Rule Symbol :=
  any [
    .node .methodInvocation (all [.field .object .left, tok ".", opt (all [super, tok "."]),
      opt (.field .typeArguments typeArguments), .field .name identifier,
      .field .arguments arguments]),
    .node .objectCreationExpression (all [.left, tok ".", creation]),
    .node .fieldAccess (all [.field .object .left, opt (all [tok ".", super]), tok ".",
      .field .field (any [identifier, this])]),
    .node .arrayAccess (all [.field .array .left, tok "[", .field .index (.ref .expression),
      tok "]"]),
    .node .methodReference
      (all [.left, tok "::", opt typeArguments, any [tok "new", identifier]])]

/-- Primary expressions. -/
def primary : Rule Symbol := .chain primaryBase primarySuffix

/-- The operators that assign. -/
def assignmentOperator : Rule Symbol :=
  any ((["=", "+=", "-=", "*=", "/=", "&=", "|=", "^=", "%=", "<<="].map tok) ++
    [.token [">", ">", ">", "="], .token [">", ">", "="]])

/-- A primary expression that may be assigned to, or stepped. -/
def postfix' : Rule Symbol :=
  .chain primary (any [
    .node .assignmentExpression (all [.field .left .left, .field .operator assignmentOperator,
      .field .right (.ref .expression)]),
    .node .updateExpression (all [.left, any [tok "++", tok "--"]])])

/-- Casts. The operand of a cast to a type that is not primitive bears no sign, since the sign would
be an operator between a parenthesis and that operand. -/
def cast : Rule Symbol :=
  .node .castExpression (any [
    all [tok "(", .field .type primitiveType, tok ")", .field .value (.ref .unary)],
    all [tok "(", sep "&" (.field .type (.ref .type)), tok ")",
      .unless (any (["+", "-", "++", "--"].map tok)),
      .field .value (any [lambda, .ref .unary])]])

/-- Expressions with an operator in front, and those without operators. -/
def unary : Rule Symbol :=
  any [
    .node .updateExpression (all [any [tok "++", tok "--"], .ref .unary]),
    .node .unaryExpression (all [.field .operator (any (["+", "-", "!", "~"].map tok)),
      .field .operand (.ref .unary)]),
    cast, postfix']

/-- Operands joined by one of some operators, from left to right. -/
def binary (operators : List (Rule Symbol)) (operand : Rule Symbol) : Rule Symbol :=
  .chain operand (.node .binaryExpression (all [.field .left .left,
    .field .operator (any operators), .field .right operand]))

/-- Products. -/
def product : Rule Symbol := binary (["*", "/", "%"].map tok) (.ref .unary)

/-- Sums. -/
def sum : Rule Symbol := binary (["+", "-"].map tok) product

/-- Shifts. -/
def shift : Rule Symbol :=
  binary [tok "<<", .token [">", ">", ">"], .token [">", ">"]] sum

/-- Comparisons, and tests of the type of a value. -/
def relation : Rule Symbol :=
  .chain shift (any [
    .node .instanceofExpression (all [.field .left .left, tok "instanceof", opt (tok "final"),
      any [
        .field .pattern (.ref .recordPattern),
        all [.field .right (.ref .type), opt (.field .name identifier)]]]),
    .node .binaryExpression (all [.field .left .left,
      .field .operator (any [tok "<=", .token [">", "="], tok "<", tok ">"]),
      .field .right shift])])

/-- Tests of equality. -/
def equality : Rule Symbol := binary (["==", "!="].map tok) relation

/-- Expressions joined by logical operators, those of single marks binding tighter. -/
def disjunction : Rule Symbol :=
  ["&", "^", "|", "&&", "||"].foldl (fun operand text => binary [tok text] operand) equality

/-- Expressions other than lambdas. -/
def conditional : Rule Symbol :=
  .chain disjunction (.node .ternaryExpression (all [.field .condition .left, tok "?",
    .field .consequence (.ref .expression), tok ":", .field .alternative (.ref .expression)]))

/-- A pattern that takes a record apart. -/
def recordPattern : Rule Symbol :=
  .node .recordPattern (all [
    any [.node .genericType (all [typeIdentifier, typeArguments]), identifier],
    .node .recordPatternBody (all [tok "(",
      commas (any [.ref .recordPattern,
        .node .recordPatternComponent (any [all [.ref .plainType, identifier],
          .leaf "_" .underscorePattern])]),
      tok ")"])])

/-! ### Statements -/

/-- Clauses that catch. -/
def catchClause : Rule Symbol :=
  .node .catchClause (all [tok "catch", tok "(",
    .node .catchFormalParameter (all [opt modifiers,
      .node .catchType (sep "|" (.ref .plainType)), declaratorId]),
    tok ")", .field .body (.ref .block)])

/-- The clause that always runs. -/
def finallyClause : Rule Symbol := .node .finallyClause (all [tok "finally", .ref .block])

/-- A resource: a declaration, or a variable that holds one. -/
def resource : Rule Symbol :=
  .node .resource (any [
    all [opt modifiers, .field .type (.ref .plainType), declaratorId, tok "=",
      .field .value (.ref .expression)],
    primary])

/-- Statements that try. -/
def tryStatement : Rule Symbol :=
  any [
    .node .tryWithResourcesStatement (all [tok "try",
      .field .resources (.node .resourceSpecification
        (all [tok "(", sep ";" resource, opt (tok ";"), tok ")"])),
      .field .body (.ref .block), .many catchClause, opt finallyClause]),
    .node .tryStatement (all [tok "try", .field .body (.ref .block),
      any [all [.many catchClause, finallyClause], some' catchClause]])]

/-- Loops. -/
def loops : List (Rule Symbol) :=
  [
    .node .whileStatement (all [tok "while", .field .condition parenthesized,
      .field .body (.ref .statement)]),
    .node .doStatement (all [tok "do", .field .body (.ref .statement), tok "while",
      .field .condition parenthesized, tok ";"]),
    .node .enhancedForStatement (all [tok "for", tok "(", opt modifiers,
      .field .type (.ref .plainType), declaratorId, tok ":", .field .value (.ref .expression),
      tok ")", .field .body (.ref .statement)]),
    .node .forStatement (all [tok "for", tok "(",
      any [.field .init (variableDeclaration .localVariableDeclaration),
        all [commas (.field .init (.ref .expression)), tok ";"]],
      opt (.field .condition (.ref .expression)), tok ";",
      commas (.field .update (.ref .expression)), tok ")", .field .body (.ref .statement)])]

/-- Statements that leave a construct. -/
def jumps : List (Rule Symbol) :=
  [
    .node .breakStatement (all [tok "break", opt identifier, tok ";"]),
    .node .continueStatement (all [tok "continue", opt identifier, tok ";"]),
    .node .returnStatement (all [tok "return", opt (.ref .expression), tok ";"]),
    throwStatement,
    .node .yieldStatement (all [tok "yield", .ref .expression, tok ";"])]

/-- Blocks. -/
def block : Rule Symbol := .node .block (all [tok "\x7b", .many (.ref .statement), tok "\x7d"])

/-- Statements. -/
def statement : Rule Symbol :=
  any ([
    .ref .block,
    tok ";",
    .node .labeledStatement (all [identifier, tok ":", .ref .statement]),
    .node .ifStatement (all [tok "if", .field .condition parenthesized,
      .field .consequence (.ref .statement),
      opt (all [tok "else", .field .alternative (.ref .statement)])])] ++
    loops ++ jumps ++ [
    .node .assertStatement (all [tok "assert", .ref .expression,
      opt (all [tok ":", .ref .expression]), tok ";"]),
    .node .synchronizedStatement (all [tok "synchronized", parenthesized,
      .field .body (.ref .block)]),
    tryStatement,
    .ref .typeDeclaration,
    variableDeclaration .localVariableDeclaration,
    switch,
    expressionStatement])

/-! ### Declarations -/

/-- The types that a type implements, extends or permits. -/
def typeList : Rule Symbol := .node .typeList (sep "," (.ref .type))

/-- The interfaces that a class implements. -/
def interfaces : Rule Symbol :=
  opt (.field .interfaces (.node .superInterfaces (all [tok "implements", typeList])))

/-- The types that may extend a sealed type. -/
def permits : Rule Symbol :=
  opt (.field .permits (.node .permits (all [tok "permits", typeList])))

/-- Optional type parameters of a declaration. -/
def typeParametersField : Rule Symbol := opt (.field .typeParameters typeParameters)

/-- The exceptions that a method may throw. -/
def throws : Rule Symbol := opt (.node .throws (all [tok "throws", sep "," (.ref .type)]))

/-- Methods, with a body or without. -/
def method : Rule Symbol :=
  .node .methodDeclaration (all [opt modifiers,
    opt (all [.field .typeParameters typeParameters, annotations]),
    .field .type (.ref .plainType), .field .name identifier, .field .parameters formalParameters,
    opt (.field .dimensions dimensions), throws, any [.field .body (.ref .block), tok ";"]])

/-- The call of another constructor, with which a constructor may begin. -/
def constructorCall : Rule Symbol :=
  .node .explicitConstructorInvocation (all [
    any [
      all [opt (.field .typeArguments typeArguments), .field .constructor (any [this, super]),
        .field .arguments arguments],
      all [.field .object primary, tok ".", opt (.field .typeArguments typeArguments),
        .field .constructor super, .field .arguments arguments]],
    tok ";"])

/-- Constructors. -/
def constructor' : Rule Symbol :=
  .node .constructorDeclaration (all [opt modifiers, typeParametersField,
    .field .name identifier, .field .parameters formalParameters, throws,
    .field .body (.node .constructorBody
      (all [tok "\x7b", opt constructorCall, .many (.ref .statement), tok "\x7d"]))])

/-- What may stand in the body of a class. -/
def member : Rule Symbol :=
  any [
    tok ";",
    .node .staticInitializer (all [tok "static", .ref .block]),
    .ref .block,
    .ref .typeDeclaration,
    constructor',
    .node .compactConstructorDeclaration
      (all [opt modifiers, .field .name identifier, .field .body (.ref .block)]),
    method,
    variableDeclaration .fieldDeclaration]

/-- The body of a class. -/
def classBody : Rule Symbol := .node .classBody (all [tok "\x7b", .many member, tok "\x7d"])

/-- The body of an interface. -/
def interfaceBody : Rule Symbol :=
  .node .interfaceBody (all [tok "\x7b",
    .many (any [tok ";", .ref .typeDeclaration, method, variableDeclaration .constantDeclaration]),
    tok "\x7d"])

/-- The body of an enumeration. -/
def enumBody : Rule Symbol :=
  .node .enumBody (all [tok "\x7b",
    commas (.node .enumConstant (all [opt modifiers, .field .name identifier,
      opt (.field .arguments arguments), opt (.field .body (.ref .classBody))])),
    opt (tok ","),
    opt (.node .enumBodyDeclarations (all [tok ";", .many member])), tok "\x7d"])

/-- The body of an annotation type. -/
def annotationTypeBody : Rule Symbol :=
  .node .annotationTypeBody (all [tok "\x7b",
    .many (any [
      tok ";",
      .ref .typeDeclaration,
      .node .annotationTypeElementDeclaration (all [opt modifiers,
        .field .type (.ref .plainType), .field .name identifier, tok "(", tok ")",
        opt (.field .dimensions dimensions),
        opt (all [tok "default", .field .value (.ref .elementValue)]), tok ";"]),
      variableDeclaration .constantDeclaration]),
    tok "\x7d"])

/-- The body of a module. -/
def moduleBody : Rule Symbol :=
  let targets (word : String) := opt (all [tok word, sep "," qualifiedName])
  .node .moduleBody (all [tok "\x7b",
    .many (any [
      .node .requiresModuleDirective (all [tok "requires",
        .many (.node .requiresModifier (any [tok "transitive", tok "static"])), qualifiedName,
        tok ";"]),
      .node .exportsModuleDirective (all [tok "exports", qualifiedName, targets "to", tok ";"]),
      .node .opensModuleDirective (all [tok "opens", qualifiedName, targets "to", tok ";"]),
      .node .usesModuleDirective (all [tok "uses", qualifiedName, tok ";"]),
      .node .providesModuleDirective
        (all [tok "provides", qualifiedName, targets "with", tok ";"])]),
    tok "\x7d"])

/-- Declarations other than those of variables and members. -/
def typeDeclaration : Rule Symbol :=
  any [
    .node .classDeclaration (all [opt modifiers, tok "class", .field .name identifier,
      typeParametersField,
      opt (.field .superclass (.node .superclass (all [tok "extends", .ref .type]))),
      interfaces, permits, .field .body (.ref .classBody)]),
    .node .interfaceDeclaration (all [opt modifiers, tok "interface", .field .name identifier,
      typeParametersField, opt (.node .extendsInterfaces (all [tok "extends", typeList])),
      permits, .field .body interfaceBody]),
    .node .enumDeclaration (all [opt modifiers, tok "enum", .field .name identifier, interfaces,
      .field .body enumBody]),
    .node .recordDeclaration (all [opt modifiers, tok "record", .field .name identifier,
      typeParametersField, .field .parameters formalParameters, interfaces,
      .field .body (.ref .classBody)]),
    .node .annotationTypeDeclaration (all [opt modifiers, .token ["@", "interface"],
      .field .name identifier, .field .body annotationTypeBody]),
    .node .packageDeclaration (all [annotations, tok "package", qualifiedName, tok ";"]),
    .node .importDeclaration (all [tok "import", opt (tok "static"), qualifiedName,
      opt (all [tok ".", .leaf "*" .asterisk]), tok ";"]),
    .node .moduleDeclaration (all [annotations, opt (tok "open"), tok "module",
      .field .name qualifiedName, .field .body moduleBody])]

/-- What stands at the top level: statements, declarations among them, and methods. -/
def topLevel : Rule Symbol := any [.ref .statement, method]

/-- A compilation unit. -/
def program : Rule Symbol := .many topLevel

/-- The rule of each symbol. -/
def ruleOf : Symbol → Rule Symbol
  | .expression => any [lambda, conditional]
  | .conditional => conditional
  | .unary => unary
  | .type => type
  | .plainType => plainType
  | .annotationUse => annotationUse
  | .elementValue => elementValue
  | .initializer => initializer
  | .recordPattern => recordPattern
  | .block => block
  | .statement => statement
  | .typeDeclaration => typeDeclaration
  | .classBody => classBody

end Grammar

end MonoTap.Java

import MonoTap.Receiver.Declaration
import MonoTap.Receiver.ResolvedType

/-!
# Types of receivers

The type of an expression, read off the declarations in the same text. A name has the type it is
declared with, or if that is `var` the type of its value; a parenthesis or an operator that keeps
the type passes it on; `Mono.just` and its like take their argument's type.

The way from an expression to its type has at most `levels` steps between two factory calls, and at
most as many factory calls as the text has bytes: a longer way goes round in a circle.
-/

set_option autoImplicit false

namespace MonoTap.Receiver

open Java (Node Cursor Kind)

/-- The operators whose result has the type of their receiver. -/
def typePreservingOperators : List String :=
  ["cache", "checkpoint", "contextWrite", "defaultIfEmpty", "delayElement", "doAfterSuccessOrError",
    "doFinally", "doOnCancel", "doOnError", "doOnNext", "doOnSubscribe", "doOnSuccess",
    "doOnTerminate", "filter", "hide", "log", "name", "onErrorResume", "onErrorReturn", "publishOn",
    "retry", "subscribeOn", "switchIfEmpty", "tag", "tap", "timeout"]

/-- The type of the values that a literal of some kind stands for. -/
def literalType? : Kind → Option String
  | .stringLiteral => some "String"
  | .characterLiteral => some "Character"
  | .decimalIntegerLiteral | .hexIntegerLiteral => some "Integer"
  | .decimalFloatingPointLiteral => some "Double"
  | .trueLiteral | .falseLiteral => some "Boolean"
  | _ => none

/-- The type of the values that a node stands for, if it is a literal. -/
def literalTypeOf? (n : Node) : Option String :=
  match n.label with
  | .kind k => literalType? k
  | .token _ => none

/-- The named nodes inside other than annotations. -/
def unannotated (n : Node) : List Node :=
  n.namedChildren.filter fun c => !c.isAny [.annotationCall, .annotationMarker]

/-- The concrete type that an argument of a type names; a wildcard names one by its upper bound. -/
def argumentText? (source : Text.Source) (n : Node) : Option String :=
  if n.is .wildcard then
    if n.children.any fun c => c.label == .token "extends" then
      (unannotated n).getLast?.map (Node.text source)
    else none
  else some (n.text source)

/-- Whether a node is the name of a type. -/
def isTypeName (n : Node) : Bool :=
  n.isAny [.typeIdentifier, .scopedTypeIdentifier]

/-- The type that a node spells out. -/
def typeOfNode? (source : Text.Source) (n : Node) : Option ResolvedType :=
  if n.is .annotatedType then
    match _h : (unannotated n).getLast? with
    | some c => typeOfNode? source c
    | none => none
  else if isTypeName n then some ⟨n.text source, []⟩
  else if n.is .genericType then
    ((n.namedChildren.filter isTypeName).getLast?).map fun head =>
      ⟨head.text source,
        (((n.namedChildren.filter (·.is .typeArguments)).getLast?).map fun args =>
          args.namedChildren.map (argumentText? source)).getD []⟩
  else none
termination_by sizeOf n
decreasing_by
  have inside : c ∈ n.namedChildren := (List.mem_filter.1 (List.mem_of_getLast? _h)).1
  exact Node.sizeOf_lt_of_mem_children (Node.mem_children_of_mem_namedChildren inside)

/-- The type of a declared name, given the type of its value. -/
def Declaration.type? (source : Text.Source) (valueType? : Cursor → Option ResolvedType)
    (d : Declaration) : Option ResolvedType :=
  match d.type with
  | none => none
  | some t => if t.text source == "var" then d.value.bind valueType? else typeOfNode? source t

/-- The type of a factory call of the type spelled `mono`, given the type of a name. -/
def factoryType (source : Text.Source) (nameType? : Cursor → Option ResolvedType)
    (mono name : String) (call : Cursor) : ResolvedType :=
  let witness := ((call.node.child? .typeArguments).map Node.namedChildren).getD []
  match witness with
  | [argument] => ⟨mono, [some (argument.text source)]⟩
  | _ =>
    if name == "just" || name == "justOrEmpty" then
      match call.node.child? .arguments with
      | none => ⟨mono, [none]⟩
      | some args =>
        match args.namedChildren with
        | [value] =>
          match literalTypeOf? value with
          | some literal => ⟨mono, [some literal]⟩
          | none =>
            if value.is .identifier then
              ⟨mono, [(nameType? ((call.down args).down value)).bind ResolvedType.text?]⟩
            else ⟨mono, [none]⟩
        | _ => ⟨mono, [none]⟩
    else ⟨mono, [none]⟩

/-- The type of an expression whose way to a factory call has at most `levels` steps, given the type
of the names that are arguments of factory calls. -/
def typeWithin? (source : Text.Source) (nameType? : Cursor → Option ResolvedType) :
    (levels : Nat) → Cursor → Option ResolvedType
  | 0, _ => none
  | levels + 1, c =>
    let inner? := typeWithin? source nameType? levels
    match c.node.label with
    | .token _ => none
    | .kind k =>
      match k with
      | .identifier =>
        (declaration? source (c.node.text source) c).bind (·.type? source inner?)
      | .fieldAccess =>
        match c.node.child? .object, c.node.child? .field with
        | some object, some field =>
          if object.is .this then
            (fieldAround? source (field.text source) c.ancestors).bind (·.type? source inner?)
          else none
        | _, _ => none
      | .parenthesizedExpression => c.node.namedChildren.head?.bind fun e => inner? (c.down e)
      | .castExpression => (c.node.child? .type).bind (typeOfNode? source)
      | .methodInvocation =>
        match c.node.child? .object with
        | none => none
        | some object =>
          let name := ((c.node.child? .name).map (Node.text source)).getD ""
          let receiver := object.text source
          if receiver == monoSimpleName || receiver == monoName then
            some (factoryType source nameType? receiver name c)
          else if typePreservingOperators.contains name then inner? (c.down object)
          else none
      | _ => none

/-- The number of steps on the way from an expression to its type between two factory calls. -/
def levels : Nat := 33

/-- The type of an expression with at most `hops` factory calls on the way to it. -/
def typeAfter? (source : Text.Source) : (hops : Nat) → Cursor → Option ResolvedType
  | 0 => typeWithin? source (fun _ => none) levels
  | hops + 1 => typeWithin? source (typeAfter? source hops) levels

/-- The type of an expression, if the text shows it. -/
def type? (source : Text.Source) (c : Cursor) : Option ResolvedType :=
  typeAfter? source source.size c

end MonoTap.Receiver

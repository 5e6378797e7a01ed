import MonoTap.CallSite.Basic
import MonoTap.Callback.Body
import MonoTap.Receiver.Typing

/-!
# Matching

The calls of a compilation unit that are to be converted, and the call site that each of them is. A
call is eligible by its name, its one argument and the type of its receiver. An eligible call is no
call site if its argument is not a lambda of two parameters with a block as its body.
-/

set_option autoImplicit false

namespace MonoTap

open Java (CompilationUnit Cursor Node)
open Callback (Binding Resolution)

/-- The name of the method whose calls are converted. -/
def methodName : String := "doAfterSuccessOrError"

/-- The arguments of a call, without comments. -/
def argumentsOf (call : Node) : List Node :=
  ((call.child? .arguments).map Callback.uncommented).getD []

/-- The text of the part of a node, empty if it has none. -/
def partText (source : Text.Source) (n : Node) (role : Java.Role) : String :=
  ((n.child? role).map (Node.text source)).getD ""

/-- Whether the simple name `Mono` means the type whose calls are converted. -/
def knowsMono (u : CompilationUnit) : Bool :=
  (Imports.Table.ofUnit u).covers Receiver.monoName

/-- Whether a call is to be converted. A receiver of unknown type passes if the simple name `Mono`
is known. -/
def isEligible (u : CompilationUnit) (call : Cursor) : Bool :=
  call.node.is .methodInvocation &&
    partText u.source call.node .name == methodName &&
    match call.node.child? .object with
    | none => false
    | some receiver =>
      (argumentsOf call.node).length == 1 &&
        match Receiver.type? u.source (call.down receiver) with
        | some t => Receiver.isMono t (knowsMono u)
        | none => knowsMono u

/-- The calls to be converted, in source order, outer before inner. -/
def eligibleCalls (u : CompilationUnit) : List Cursor :=
  (u.root.cursors []).filter (isEligible u)

/-- Why an eligible call is no call site. -/
inductive UnsupportedCallback where
  | notLambda (kind : Java.Kind)
  | parameterCount (count : Nat)
  | expressionBody
  deriving DecidableEq, Repr

/-- The wording of the reason. -/
def UnsupportedCallback.message : UnsupportedCallback → String
  | .notLambda kind => "callback is a " ++ kind.phrase ++ ", not a lambda expression"
  | .parameterCount count =>
    "callback declares " ++ toString count ++ " parameter(s), expected (value, error)"
  | .expressionBody => "callback body is a single expression, not a block"

/-- The kind of a node. -/
def kindOf (n : Node) : Java.Kind :=
  match n.label with
  | .kind k => k
  | .token _ => .error

/-- The two parameters of a callback and its block. -/
def callbackParts (source : Text.Source) (callback : Node) :
    Except UnsupportedCallback (List (String × Option String) × Node) :=
  if callback.is .lambdaExpression then
    let parameters := Callback.lambdaParameters source callback
    if parameters.length == 2 then
      match callback.child? .body with
      | some body =>
        if body.is .block then .ok (parameters, body) else .error .expressionBody
      | none => .error .expressionBody
    else .error (.parameterCount parameters.length)
  else .error (.notLambda (kindOf callback))

/-- The line of the name of the method of a call. -/
def callLine (source : Text.Source) (call : Node) : Nat :=
  source.line (((call.child? .name).map Node.start).getD call.start)

/-- The binding of the parameter at a position. -/
def parameterAt (parameters : List (String × Option String)) (i : Nat) : Binding :=
  match parameters[i]? with
  | some (name, type) => ⟨i + 1, name, type⟩
  | none => ⟨i + 1, "", none⟩

/-- The call site of an eligible call. -/
def CallSite.ofCall (u : CompilationUnit) (file : String) (call : Cursor) :
    Except UnsupportedCallback CallSite := do
  let source := u.source
  let callback := ((argumentsOf call.node).head?).getD call.node
  let (parameters, body) ← callbackParts source callback
  let resolution := Resolution.ofBody source parameters body
  let entries := Callback.entriesOf source resolution body
  let start := ((call.node.child? .name).map Node.start).getD call.node.start
  return {
    file
    line := callLine source call.node
    receiver := partText source call.node .object
    parameters := ⟨parameterAt parameters 0, parameterAt parameters 1⟩
    receiverType := (call.node.child? .object).bind fun receiver =>
      Receiver.type? source (call.down receiver)
    arena := Callback.arenaOf source resolution entries
    body := Callback.positionsFrom 0 entries
    start
    stop := call.node.stop
    indentText := String.ofList (source.lineIndent start)
    reservedNames := Callback.sortedNames (resolution.freeNames ++ resolution.declaredNames)
    newline := Text.newlineOf source.toBytes }

end MonoTap

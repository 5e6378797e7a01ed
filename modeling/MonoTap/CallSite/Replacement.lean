import MonoTap.CallSite.Basic
import MonoTap.Listener.Skeleton
import MonoTap.Settings.Basic

/-!
# Replacements

The listener call that takes the place of a call site, or the reason why the site stays as it is.
-/

set_option autoImplicit false

namespace MonoTap

open Callback (Arena Binding Bucket Buckets NoStatement Statement)

/-- Why the type of the elements of a receiver is not known. -/
inductive UnknownElement where
  | unresolvedReceiver
  | rawReceiver (name : String)
  | abstractArgument
  deriving DecidableEq, Repr

/-- The wording of the reason, for a receiver with the given text. -/
def UnknownElement.message (receiver : String) : UnknownElement → String
  | .unresolvedReceiver => "cannot resolve the type of receiver '" ++ receiver ++ "'"
  | .rawReceiver name => "receiver '" ++ receiver ++ "' has raw type " ++ name
  | .abstractArgument => "receiver '" ++ receiver ++ "' has no concrete element type"

/-- The text that replaces a call, the imports it needs, the buckets of the statements, and warnings
about it. -/
structure Replacement where
  text : String
  imports : List String
  buckets : Buckets
  notes : List Diagnostic
  deriving Repr

/-- What came of a call site: its replacement, or the diagnostic that says why it stays. -/
structure Outcome where
  line : Nat
  result : Except Diagnostic Replacement

namespace Outcome

/-- Whether the site was converted. -/
def converted (o : Outcome) : Bool :=
  match o.result with
  | .ok _ => true
  | .error _ => false

/-- What is said about the site. -/
def diagnostics (o : Outcome) : List Diagnostic :=
  match o.result with
  | .ok r => r.notes
  | .error d => [d]

end Outcome

/-- The qualified names that a listener call mentions. -/
def listenerImports : List String :=
  ["reactor.core.observability.DefaultSignalListener", "reactor.core.publisher.SignalType"]

/-- The least of the names `base1`, `base2` and so on that is not taken. Of one name more than there
are taken ones, one is free. -/
def numberedName (taken : List String) (base : String) : String :=
  (((List.range (taken.length + 1)).map fun k => base ++ toString (k + 1)).find?
    (!taken.contains ·)).getD base

/-- A name, with a number after it if it is taken. -/
def freshName (taken : List String) (preferred : String) : String :=
  if taken.contains preferred then numberedName taken preferred else preferred

theorem freshName_of_not_mem {taken : List String} {preferred : String} (h : preferred ∉ taken) :
    freshName taken preferred = preferred := by
  simp [freshName, h]

namespace CallSite

/-- The first argument of the type of the receiver, or else the type that the callback itself gives
to the value. -/
def elementType (site : CallSite) : Except UnknownElement String :=
  let declared := (site.parameters.value.type).filter fun t => !t.isEmpty && t != "var"
  match site.receiverType with
  | none => (declared.map .ok).getD (.error .unresolvedReceiver)
  | some t =>
    match t.arguments with
    | some argument :: _ => .ok argument
    | none :: _ => (declared.map .ok).getD (.error .abstractArgument)
    | [] => (declared.map .ok).getD (.error (.rawReceiver t.name))

/-- The names that a new parameter must not have. -/
def takenNames (site : CallSite) : List String :=
  site.parameters.value.name :: site.parameters.error.name :: site.reservedNames

/-- The parameter that a method of the listener declares under the name it has in the callback. -/
def ownParameter? (site : CallSite) : Bucket → Option Binding
  | .value => some site.parameters.value
  | .error => some site.parameters.error
  | .termination => none

/-- Whether the method for a bucket declares a parameter of the callback. -/
def owns (site : CallSite) (bucket : Bucket) (parameter : Binding) : Bool :=
  (site.ownParameter? bucket).any parameter.same

/-- The warning that a statement mentions a parameter where there is none of that name. -/
def scopeNote (site : CallSite) (bucket : Bucket) (s : Statement) (parameter : Binding) :
    Diagnostic :=
  { file := site.file
    line := s.line
    message := "statement placed in " ++ bucket.method ++ " references '" ++ parameter.name ++
      "', which is not a parameter there"
    severity := .warning }

/-- The warnings about the statements in the method for a bucket. -/
def scopeNotes (site : CallSite) (bucket : Bucket) (statements : List Statement) :
    List Diagnostic :=
  statements.flatMap fun s =>
    ([site.parameters.value, site.parameters.error].filter fun parameter =>
      !site.owns bucket parameter && s.uses parameter).map (site.scopeNote bucket s)

/-- How the listener is laid out at a site. -/
def layout (site : CallSite) (settings : Settings) : Listener.Layout :=
  { base := site.indentText.toList
    step := settings.indent.toList
    order := settings.methodOrder
    override := settings.override
    newline := site.newline.toList }

/-- The names in the listener at a site. -/
def names (site : CallSite) (settings : Settings) (elementType : String) : Listener.Names :=
  { elementType
    value := site.parameters.value.name
    error := site.parameters.error.name
    termination := freshName site.takenNames settings.terminationName }

/-- The statements that go to each method. -/
def bodies (site : CallSite) (buckets : Buckets) :
    Except NoStatement (Bucket → List Statement) := do
  let value ← buckets.value.mapM site.arena.get
  let error ← buckets.error.mapM site.arena.get
  let termination ← buckets.termination.mapM site.arena.get
  return fun
    | .value => value
    | .error => error
    | .termination => termination

/-- The replacement of a site whose statements have been classified. -/
def replacement (site : CallSite) (settings : Settings) (buckets : Buckets)
    (elementType : String) : Except NoStatement Replacement := do
  let bodies ← site.bodies buckets
  return {
    text := Listener.render (site.layout settings) (site.names settings elementType) fun bucket =>
      (bodies bucket).map fun s => ⟨s.text, s.indent⟩
    imports := listenerImports
    buckets
    notes := Bucket.all.flatMap fun bucket => site.scopeNotes bucket (bodies bucket) }

/-- Converts a site, unless the type of its elements is not known. -/
def attempt (site : CallSite) (settings : Settings) : Except NoStatement Outcome := do
  let buckets ← Callback.classify site.parameters site.arena site.body
  match site.elementType with
  | .error reason =>
    let message := reason.message site.receiver
    return ⟨site.line, .error ⟨site.file, site.line, message, .warning⟩⟩
  | .ok elementType => return ⟨site.line, .ok (← site.replacement settings buckets elementType)⟩

end CallSite

end MonoTap

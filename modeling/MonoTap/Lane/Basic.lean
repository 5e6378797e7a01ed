import MonoTap.CallSite.Conversion
import MonoTap.Lane.Confidence
import MonoTap.Lane.Gate
import MonoTap.Number.Numeral
import MonoTap.Text.LowerCase

/-!
# Lanes

A lane is one path of migration: where it leads from and to, how well it fits a request, how sure it
is of its results, and the gates that check them. The lane built in here leads away from
`doAfterSuccessOrError` to `tap`.
-/

set_option autoImplicit false

namespace MonoTap

open Document (Value)
open Number (Binary64)
open Lane (FileText Gate GateDefinition GateResult Scalar Verdict)

/-- A path of migration. -/
structure Lane where
  id : String
  displayName : String
  sourceFrameworks : List String
  targetFrameworks : List String
  version : String
  deprecated : Bool
  minSourceVersion : Option String
  maxSourceVersion : Option String
  /-- The score for a source framework and a target. Nothing if it cannot be told. -/
  applicability : Value → Value → Option Scalar
  /-- The score of a file that was converted, with or without diagnostics. -/
  confidence : (diagnosed : Bool) → Scalar
  gates : List Gate

namespace Lane

/-! ### Applicability -/

/-- The names of the frameworks that the lane leads away from. -/
def reactorFrameworks : List String :=
  ["reactor", "reactor-core", "reactor-3.4", "reactor_3_4"]

/-- Whether a version is 3.5 or later. -/
def atLeast3_5 (version : List Char) : Bool :=
  match Text.splitAt '.' version with
  | [] => false
  | [major] => (Number.integer? major).any (3 < ·)
  | major :: minor :: _ =>
    match Number.integer? major, Number.integer? minor with
    | some x, some y => 3 < x || (x == 3 && 5 ≤ y)
    | _, _ => false

/-- The text under a key of a map; empty if there is none. -/
def textUnder (entries : List (Value × Value)) (key : String) : String :=
  (Value.entry? key entries).elim "" Value.display

/-- The score for a target: full from version 3.5 of the framework on. -/
def targetScore (entries : List (Value × Value)) : Scalar :=
  let framework := Text.lower (textUnder entries "framework").toList
  if Text.holds "reactor".toList framework then
    if atLeast3_5 (textUnder entries "version").toList then .real (.ofInt 1)
    else .real (.ofDecimal false 8 (-1))
  else .real (.ofDecimal false 5 (-1))

/-- The score for a source framework and a target. -/
def reactorApplicability (source target : Value) : Option Scalar :=
  match source with
  | .text name =>
    if reactorFrameworks.contains (Text.lowerString name) then
      match target with
      | .map entries => some (targetScore entries)
      | _ => none
    else some (.real .zero)
  | _ => none

/-! ### Rules and gates -/

/-- A rule: what it replaces, by what, and how sure it is. -/
structure Rule where
  name : String
  typeName : String
  methodName : String
  template : String
  confidence : Binary64
  needsReview : Bool
  description : String

/-- The rule that replaces a callback by a listener. -/
def tapRule : Rule :=
  { name := "do_after_success_or_error_to_tap"
    typeName := Receiver.monoName
    methodName
    template := "default_signal_listener"
    confidence := highScore
    needsReview := false
    description := "Replace doAfterSuccessOrError((value, error) -> \x7b...\x7d) with " ++
      "tap(() -> new DefaultSignalListener<>() \x7b...\x7d), splitting the " ++
      "callback body into doOnNext, doOnError and doFinally." }

/-- The gate on calls that are left. -/
def noDeprecatedCalls : Gate :=
  { definition := {
      name := "no_deprecated_calls"
      description := "No Mono#doAfterSuccessOrError call site is left in the migrated sources."
      blocking := true
      category := .parity }
    run := noCallsLeft }

/-- The gate on syntax errors. -/
def syntaxGate : Gate :=
  { definition := {
      name := "syntax_clean"
      description := "Every rewritten file parses without errors."
      blocking := true
      category := .compile }
    run := syntaxClean }

/-- The gates of the built-in lane. -/
def tapGates : List Gate := [noDeprecatedCalls, syntaxGate]

/-- Runs the gate of the built-in lane that has the given name. -/
def runNamed (name : String) (sources outputs : List FileText) : Option Verdict :=
  match tapGates.find? (·.definition.name == name) with
  | some g => g.run sources outputs
  | none => some (unknownGate name)

/-- The built-in lane. -/
def tap : Lane :=
  { id := "reactor_do_after_success_or_error_to_tap"
    displayName := "Reactor Mono#doAfterSuccessOrError → Mono#tap"
    sourceFrameworks := ["reactor-3.4"]
    targetFrameworks := ["reactor-3.5"]
    version := "1.0.0"
    deprecated := false
    minSourceVersion := none
    maxSourceVersion := some "3.4"
    applicability := reactorApplicability
    confidence := fun diagnosed => .real (if diagnosed then standardScore else highScore)
    gates := tapGates }

/-! ### Results -/

/-- What a lane says about a file that it converted. -/
structure Summary where
  unit : String
  path : String
  text : String
  rule : String
  confidence : Scalar
  notes : List String

/-- The summary of a converted file; none if nothing changed. -/
def summary? (lane : Lane) (unit : String) (r : Conversion) : Option Summary :=
  if r.changed then
    let diagnostics := r.allDiagnostics
    some {
      unit
      path := r.file
      text := r.text
      rule := tapRule.name
      confidence := lane.confidence (!diagnostics.isEmpty)
      notes := diagnostics.map fun d => "line " ++ toString d.line ++ ": " ++ d.message }
  else none

/-- The summaries of several texts with the names of their units. What cannot be converted has
none. -/
def summaries (lane : Lane) (settings : Settings) (units : List (String × FileText)) :
    List Summary :=
  units.filterMap fun (unit, file) => do
    let text ← file.text
    let r ← (convert settings file.path text).toOption
    lane.summary? unit r

end Lane

end MonoTap

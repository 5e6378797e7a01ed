import MonoTap.CallSite.Matching
import MonoTap.Document.Keyed
import MonoTap.Document.Value

/-!
# Gates

Checks of what a migration put out. One looks for calls that are left in the final texts, and one
for syntax errors in the new texts.
-/

set_option autoImplicit false

namespace MonoTap.Lane

open Document (Keyed.put Keyed.putAll Value)
open Java (CompilationUnit)

/-- What a gate is about. -/
inductive GateCategory where
  | parity | compile
  deriving DecidableEq, Repr

/-- The word for a category. -/
def GateCategory.word : GateCategory → String
  | .parity => "parity"
  | .compile => "compile"

/-- The category with the given word. -/
def GateCategory.ofWord? (word : String) : Option GateCategory :=
  [GateCategory.parity, .compile].find? (·.word == word)

/-- What a gate is. A blocking one fails the migration when it fails. -/
structure GateDefinition where
  name : String
  description : String
  blocking : Bool
  category : GateCategory
  deriving DecidableEq, Repr

/-- What a gate has found. -/
inductive Findings where
  | calls (files : Nat) (lines : List (String × List Nat))
  | faults (files : Nat) (lines : List (String × Nat))
  | failure (message : String)
  | other (details : Value)

/-- The findings as a value. -/
def Findings.value : Findings → Value
  | .calls files lines =>
    .record [("files_checked", .int files),
      ("remaining", .record (lines.map fun (path, ls) =>
        (path, .list (ls.map fun (l : Nat) => .int l)))),
      ("remaining_count", .int (lines.flatMap Prod.snd).length)]
  | .faults files lines =>
    .record [("files_checked", .int files),
      ("errors", .record (lines.map fun (path, l) => (path, .int l)))]
  | .failure message => .record [("error", .text message)]
  | .other details => details

/-- The verdict of a gate. -/
structure Verdict where
  passed : Bool
  findings : Findings

/-- A file and its text, if it is a text. -/
structure FileText where
  path : String
  text : Option String
  deriving DecidableEq, Repr

/-- The final text of every file: that put out for it, or else its own. -/
def finalTexts (sources outputs : List FileText) : List (String × Option String) :=
  Keyed.putAll ((sources ++ outputs).map fun f => (f.path, f.text)) []

/-- The lines at which eligible calls begin, in the order of the calls. -/
def callLines (text : String) : List Nat :=
  let u := CompilationUnit.ofString text
  (eligibleCalls u).map fun call => u.source.line call.node.start

/-- The files with eligible calls and the lines of these. -/
def remainingCalls : List (String × Option String) → Option (List (String × List Nat))
  | [] => some []
  | (_, none) :: _ => none
  | (path, some text) :: rest =>
    (remainingCalls rest).map fun more =>
      match callLines text with
      | [] => more
      | lines => (path, lines) :: more

/-- Passes if no eligible call is left. -/
def noCallsLeft (sources outputs : List FileText) : Option Verdict :=
  let final := finalTexts sources outputs
  (remainingCalls final).map fun lines => ⟨lines.isEmpty, .calls final.length lines⟩

/-- The line of the first syntax error of a text, if there is one. -/
def firstFault? (text : String) : Option Nat :=
  let u := CompilationUnit.ofString text
  if u.hasSyntaxErrors then some u.firstErrorLine else none

/-- The files put out with syntax errors, each with the line of its first one. -/
def brokenFiles : List FileText → List (String × Nat) → Option (List (String × Nat))
  | [], found => some found
  | ⟨_, none⟩ :: _, _ => none
  | ⟨path, some text⟩ :: rest, found =>
    match firstFault? text with
    | some line => brokenFiles rest (Keyed.put path line found)
    | none => brokenFiles rest found

/-- Passes if no text put out has syntax errors. -/
def syntaxClean (_sources outputs : List FileText) : Option Verdict :=
  (brokenFiles outputs []).map fun lines => ⟨lines.isEmpty, .faults outputs.length lines⟩

/-- A gate and how it is run. Running one may fail. -/
structure Gate where
  definition : GateDefinition
  run : List FileText → List FileText → Option Verdict

/-- The verdict of a gate that does not exist. -/
def unknownGate (name : String) : Verdict :=
  ⟨false, .failure ("Unknown gate: " ++ name)⟩

/-- The verdict of a gate that could not be run. -/
def failedGate : Verdict :=
  ⟨false, .failure "Gate execution failed"⟩

/-- What a report says about a gate. -/
structure GateResult where
  name : String
  lane : String
  passed : Bool
  blocking : Bool
  category : GateCategory
  findings : Findings

/-- Runs a gate of a lane. -/
def Gate.result (lane : String) (sources outputs : List FileText) (g : Gate) : GateResult :=
  let verdict := (g.run sources outputs).getD failedGate
  { name := g.definition.name
    lane
    passed := verdict.passed
    blocking := g.definition.blocking
    category := g.definition.category
    findings := verdict.findings }

end MonoTap.Lane

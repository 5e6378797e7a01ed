import MonoTap.CommandLine.Usage
import MonoTap.Document.Json
import MonoTap.Migration.Engine
import MonoTap.Settings.Loading

/-!
# Running commands

What the program prints and the status that it ends with. Status 0 means that all went well, 1 that
a check has found a change, and 2 that the arguments make no sense.
-/

set_option autoImplicit false

namespace MonoTap.CommandLine

open Files (Entry)
open Settings (Environment LoadFault)

/-- What a run of the program puts out. -/
structure Output where
  status : Nat
  out : String
  err : String
  deriving DecidableEq, Repr

/-- Why a run of the program breaks off. -/
inductive RunFailure where
  | settings (f : LoadFault)
  | lane (m : MissingLane)
  | engine (f : EngineFailure)
  deriving DecidableEq, Repr

/-- The wording of what is wrong with settings. -/
def settingsMessage : LoadFault → String
  | .undecodable e => e.message
  | .unreadable (.unknownWord word) => "unknown word: " ++ Text.quoted word
  | .unreadable (.outOfRange message) => message
  | .unreadable .malformed => "the settings are no YAML"
  | .notRecord => "the settings are no record of texts"
  | .invalid problems => "; ".intercalate (problems.map fun p => p.cause.message)

/-- The wording of the failure. -/
def RunFailure.message : RunFailure → String
  | .settings f => settingsMessage f
  | .lane m => m.message
  | .engine (.conversion f) => f.message
  | .engine (.score f) => f.message?.getD "a score is no number"
  | .engine (.unwritable path f) => f.message path

/-- A run of the program over a tree of files. -/
abbrev Run (α : Type) := ExceptT RunFailure (StateM Entry) α

/-- What is printed about a diagnostic of a file, with the method that it falls into. -/
def diagnosticLine (m : FileMigration) (d : Diagnostic) : String :=
  let place := if d.line == 0 then none else m.enclosingMethod? d.line
  let suffix := place.elim "" fun name => " (in " ++ name ++ ")"
  m.file ++ ":" ++ toString d.line ++ ": " ++ d.severity.word ++ ": " ++ d.message ++ suffix ++ "\n"

/-- What is printed about a file. -/
def fileText (showDiff : Bool) (m : FileMigration) : String :=
  let diagnostics := String.join (m.diagnostics.map (diagnosticLine m))
  if m.changed then
    let action := if m.written then "rewrote" else "would rewrite"
    diagnostics ++ m.file ++ ": " ++ action ++ " " ++ toString m.result.convertedCount ++
      " call site(s)\n" ++ if showDiff then m.diff standardContext else ""
  else diagnostics

/-- What is printed about a gate. -/
def gateLine (g : Lane.GateResult) : String :=
  "  gate " ++ g.name ++ ": " ++ (if g.passed then "passed" else "FAILED") ++ "\n"

/-- What is printed about a run over files. -/
def reportText (showDiff : Bool) (r : Report) : String :=
  String.join (r.files.map (fileText showDiff)) ++
    "\n  " ++ toString r.changedFiles.length ++ "/" ++ toString r.files.length ++
    " file(s) changed, " ++ toString r.convertedCount ++ " site(s) rewritten, " ++
    toString r.skippedCount ++ " skipped\n" ++ String.join (r.gates.map gateLine)

/-- Takes over a run of an engine. -/
def migrating {α : Type} (run : TreeRun α) : Run α :=
  ExceptT.mk do
    match ← run.run with
    | .ok a => return .ok a
    | .error f => return .error (.engine f)

/-- Runs `migrate`. -/
def migrate (registry : Lane.Registry) (settings : Settings) (o : MigrateOptions) : Run Output := do
  if (← get).existsAt o.path then
    match Engine.standard registry settings with
    | .error m => throw (.lane m)
    | .ok engine =>
      let report ← migrating (engine.migrateTree o.path o.write)
      let failed := o.check && !report.changedFiles.isEmpty
      return ⟨if failed then 1 else 0, reportText o.diff report, ""⟩
  else
    return ⟨2, "", programName ++ ": no such file or directory: " ++ o.path ++ "\n"⟩

/-- Runs the program with some arguments. -/
def run (registry : Lane.Registry) (env : Environment) (arguments : List String) : Run Output := do
  match Arguments.ofList arguments with
  | .error refusal =>
    return match refusal.stop with
      | .help => ⟨0, refusal.text, ""⟩
      | .refused _ => ⟨2, "", refusal.text⟩
  | .ok asked =>
    match Settings.load (← get) env asked.config with
    | .error f => throw (.settings f)
    | .ok loaded =>
      let settings := { loaded with logLevel := asked.logLevel.getD loaded.logLevel }
      match asked.command with
      | .migrate options => migrate registry settings options
      | .lanes => return ⟨0, Document.Json.render registry.descriptions ++ "\n", ""⟩
      | .serve .. =>
        return ⟨2, "", programName ++ ": the service has to be run by a host program\n"⟩

end MonoTap.CommandLine

import MonoTap.Document.Problem
import MonoTap.Migration.Engine

/-!
# Previews

A preview migrates one text without files: what it is asked with, which files it takes by their
names, and what it answers.
-/

set_option autoImplicit false

namespace MonoTap.Service

open Document (Checked PathStep Value)

/-- What a preview is asked with. -/
structure PreviewRequest where
  source : String
  file : String
  deriving DecidableEq, Repr

/-- The name of a file if none is given. -/
def standardFile : String := "Preview.java"

/-- A text under a key of the body of a request, or its default. -/
def fieldOf (body : Value) (key : String) (standard : Option String) (nonempty : Bool) :
    Checked String :=
  let path : List PathStep := [.field "body", .field key]
  match body.get? key, standard with
  | some (.text s), _ => if nonempty && s.isEmpty then Checked.problem path .emptyText else .ok s
  | some _, _ => Checked.problem path .notText
  | none, some s => .ok s
  | none, none => Checked.problem path .missing

/-- The request that the body of a request makes, if there is a body. -/
def PreviewRequest.ofBody : Option Value → Checked PreviewRequest
  | none => Checked.problem [.field "body"] .missing
  | some (.map entries) =>
    let body := Value.map entries
    let source := fieldOf body "source" none false
    let file := fieldOf body "file_path" standardFile true
    Checked.app (source.map PreviewRequest.mk) file
  | some _ => Checked.problem [.field "body"] .notRecord

/-- Whether files of the given name are taken. -/
def accepts (settings : Settings) (file : String) : Bool :=
  settings.extensions.contains
    (String.ofList (Text.lower (Files.extension file.toList)))

/-- Why a file is not taken. -/
structure UnsupportedFile where
  file : String
  extensions : List String
  deriving DecidableEq, Repr

/-- The wording of the reason, which names the extension of the file if it has one. -/
def UnsupportedFile.message (u : UnsupportedFile) : String :=
  let extension := String.ofList (Files.extension u.file.toList)
  "Unsupported file type '" ++ (if extension.isEmpty then u.file else extension) ++
    "'; expected one of " ++ (Value.texts u.extensions).literal

/-- How many statements went to each method. -/
def bucketCounts (b : Callback.Buckets) : Value :=
  .record (Callback.Bucket.all.map fun bucket =>
    (bucket.word, .int ((b.get bucket).length : Nat)))

/-- What is said about a call. -/
def outcomeValue (m : FileMigration) (o : Outcome) : Value :=
  let common : List (String × Value) :=
    [("line", .int (o.line : Nat)), ("rewritten", .bool o.converted),
      ("method", .optionalText (m.enclosingMethod? o.line))]
  .record (common ++
    match o.result with
    | .ok r => [("buckets", bucketCounts r.buckets), ("reason", .null)]
    | .error d => [("buckets", .null), ("reason", .text d.message)])

/-- What is said about a diagnostic. -/
def diagnosticValue (d : Diagnostic) : Value :=
  .record [("line", .int (d.line : Nat)), ("message", .text d.message),
    ("severity", .text d.severity.word)]

/-- What is said about a gate. -/
def gateValue (g : Lane.GateResult) : Value :=
  .record [("gate_name", .text g.name), ("passed", .bool g.passed), ("blocking", .bool g.blocking),
    ("category", .text g.category.word), ("details", g.findings.value)]

/-- What a preview answers. -/
def previewValue (m : FileMigration) (gates : List Lane.GateResult) : Value :=
  .record [("file_path", .text m.file), ("source", .text m.result.text),
    ("changed", .bool m.changed), ("rewritten_count", .int (m.result.convertedCount : Nat)),
    ("skipped_count", .int (m.result.skippedCount : Nat)),
    ("outcomes", .list (m.result.outcomes.map (outcomeValue m))),
    ("diagnostics", .list (m.diagnostics.map diagnosticValue)),
    ("gates", .list (gates.map gateValue)), ("diff", .text (m.diff standardContext))]

/-- Why there is no preview. -/
inductive PreviewFailure where
  | unsupported (u : UnsupportedFile)
  | engine (f : EngineFailure)
  deriving DecidableEq, Repr

/-- Makes a preview. -/
def preview (engine : Engine) (r : PreviewRequest) : Except PreviewFailure Value :=
  if accepts engine.settings r.file then do
    let migration ← (engine.migrateText r.file r.source).mapError .engine
    let report ← (engine.lane.report [migration]).mapError fun f => .engine (.score f)
    return previewValue migration report.gates
  else .error (.unsupported ⟨r.file, engine.settings.extensions⟩)

end MonoTap.Service

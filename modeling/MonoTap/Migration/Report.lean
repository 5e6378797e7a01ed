import MonoTap.Lane.Basic
import MonoTap.Migration.FileMigration

/-!
# Reports

What came of a run over several files: the files, the verdicts of the gates about their final texts,
and the mean of the scores of the files that changed.
-/

set_option autoImplicit false

namespace MonoTap

open Lane (FileText GateResult Scalar ScoreFault Tier)

/-- What came of a run. -/
structure Report where
  lane : String
  files : List FileMigration
  gates : List GateResult
  confidence : Number.Binary64

namespace Report

/-- The files that changed. -/
def changedFiles (r : Report) : List FileMigration :=
  r.files.filter FileMigration.changed

/-- The number of sites that were converted. -/
def convertedCount (r : Report) : Nat :=
  r.files.foldr (fun f count => f.result.convertedCount + count) 0

/-- The number of sites that were not. -/
def skippedCount (r : Report) : Nat :=
  r.files.foldr (fun f count => f.result.skippedCount + count) 0

/-- Whether no blocking gate failed. -/
def passed (r : Report) : Bool :=
  r.gates.all fun g => !g.blocking || g.passed

/-- The tier of the run; none if no file changed. -/
def tier? (r : Report) : Option Tier :=
  if r.changedFiles.isEmpty then none else some (Tier.ofScore (.real r.confidence))

/-- The score as it is shown, with four decimal places. -/
def shownConfidence (r : Report) : Number.Binary64 :=
  r.confidence.round 4

end Report

/-- The report on some files. -/
def Lane.report (lane : Lane) (files : List FileMigration) : Except ScoreFault Report := do
  let sources : List FileText := files.map fun f => ⟨f.file, some f.result.before⟩
  let summaries := files.filterMap fun f => lane.summary? f.file f.result
  let outputs : List FileText := summaries.map fun s => ⟨s.path, some s.text⟩
  let confidence ← Lane.aggregate (summaries.map fun s => (s.confidence, Lane.unitWeight))
  return {
    lane := lane.id
    files
    gates := lane.gates.map (Lane.Gate.result lane.id sources outputs)
    confidence }

end MonoTap

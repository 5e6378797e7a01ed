import MonoTap.CallSite.Matching
import MonoTap.CallSite.Replacement
import MonoTap.Imports.Registration

/-!
# Converting a compilation unit

All call sites of a text, from the smallest to the largest: a site contains the sites nested in it,
whose replacements are carried into its statements. A text with syntax errors stays as it is.
-/

set_option autoImplicit false

namespace MonoTap

open Java (CompilationUnit)
open Text (Edit Overlap)
open Callback (NoStatement Statement)

/-- Why a conversion breaks off. -/
inductive ConversionFailure where
  | overlap (o : Overlap)
  | noStatement (p : NoStatement)
  deriving DecidableEq, Repr

/-- The wording of the failure. -/
def ConversionFailure.message : ConversionFailure → String
  | .overlap o => o.message
  | .noStatement p => p.message

/-- What came of a text. -/
structure Conversion where
  file : String
  before : String
  text : String
  outcomes : List Outcome
  diagnostics : List Diagnostic

namespace Conversion

/-- Whether the text is another one now. -/
def changed (r : Conversion) : Bool :=
  r.text != r.before

/-- The number of sites that were converted. -/
def convertedCount (r : Conversion) : Nat :=
  (r.outcomes.filter Outcome.converted).length

/-- The number of sites that were not. -/
def skippedCount (r : Conversion) : Nat :=
  (r.outcomes.filter fun o => !o.converted).length

/-- The diagnostics of the text and then those of its sites, by line. -/
def allDiagnostics (r : Conversion) : List Diagnostic :=
  r.diagnostics ++
    (r.outcomes.flatMap Outcome.diagnostics).mergeSort fun a b => decide (a.line ≤ b.line)

theorem convertedCount_add_skippedCount (r : Conversion) :
    r.convertedCount + r.skippedCount = r.outcomes.length := by
  simp only [convertedCount, skippedCount]
  induction r.outcomes with
  | nil => rfl
  | cons o os ih =>
    cases h : o.converted <;> simp [h] <;> omega

end Conversion

/-- The edit that replaces the call of a site. -/
def CallSite.edit (site : CallSite) (text : String) : Edit :=
  ⟨site.start, site.stop, text⟩

/-- Whether an edit lies inside a site. -/
def CallSite.encloses (site : CallSite) (e : Edit) : Bool :=
  e.within site.start site.stop

/-- A statement with those edits made that lie in it. -/
def embedInStatement (source : List UInt8) (edits : List Edit) (s : Statement) :
    Except Overlap Statement :=
  if edits.any (·.within s.start s.stop) then
    (Text.sliceWithEdits source s.start s.stop edits).map fun text => { s with text }
  else .ok s

/-- A site with those edits made in its statements that lie inside it. -/
def embedEdits (source : List UInt8) (edits : List Edit) (site : CallSite) :
    Except Overlap CallSite :=
  (site.arena.statements.mapM (embedInStatement source (edits.filter site.encloses))).map
    fun statements => { site with arena := ⟨statements⟩ }

/-- The conversion of several sites as far as it has come: the edits to make, the imports needed,
and the outcomes, the latest first. -/
structure Progress where
  edits : List Edit
  imports : Imports.Registration
  outcomes : List Outcome

/-- Takes up the outcome of a site. The edits inside a converted site are part of its replacement.
-/
def Progress.record (p : Progress) (site : CallSite) (outcome : Outcome) : Progress :=
  match outcome.result with
  | .error _ => { p with outcomes := outcome :: p.outcomes }
  | .ok r =>
    { edits := (p.edits.filter fun e => !site.encloses e) ++ [site.edit r.text]
      imports := p.imports.ensureAll r.imports
      outcomes := outcome :: p.outcomes }

/-- Converts one more site. -/
def Progress.advance (settings : Settings) (source : List UInt8) (p : Progress) (site : CallSite) :
    Except ConversionFailure Progress := do
  let embedded ← (embedEdits source p.edits site).mapError .overlap
  let outcome ← (embedded.attempt settings).mapError .noStatement
  return p.record site outcome

/-- The call site of an eligible call, or the outcome of one that is none. -/
def siteOrOutcome (u : CompilationUnit) (file : String) (call : Java.Cursor) : CallSite ⊕ Outcome :=
  match CallSite.ofCall u file call with
  | .ok site => .inl site
  | .error reason =>
    let line := callLine u.source call.node
    .inr ⟨line, .error ⟨file, line, reason.message, .warning⟩⟩

/-- The call sites of a unit, and the outcomes of the eligible calls that are none. -/
def callSites (u : CompilationUnit) (file : String) : List CallSite × List Outcome :=
  let found := (eligibleCalls u).map (siteOrOutcome u file)
  (found.filterMap Sum.getLeft?, found.filterMap Sum.getRight?)

/-- Sites from the smallest to the largest, and of equally small ones in the order given. -/
def innermostFirst (sites : List CallSite) : List CallSite :=
  sites.mergeSort fun a b => decide (a.stop - a.start ≤ b.stop - b.start)

/-- Outcomes by line, and on one line in the order given. -/
def byLine (outcomes : List Outcome) : List Outcome :=
  outcomes.mergeSort fun a b => decide (a.line ≤ b.line)

/-- Converts a unit without syntax errors. -/
def convertUnit (settings : Settings) (u : CompilationUnit) (file text : String) :
    Except ConversionFailure Conversion := do
  let source := u.source.toBytes
  let (sites, unsupported) := callSites u file
  let begun : Progress := ⟨[], .start (.ofUnit u), unsupported.reverse⟩
  let done ← (innermostFirst sites).foldlM (Progress.advance settings source) begun
  let outcomes := byLine done.outcomes.reverse
  if done.edits.isEmpty then
    return { file, before := text, text, outcomes, diagnostics := [] }
  else
    let edits := done.imports.edits u.source ++ done.edits
    let converted ← (Text.applyEdits source edits).mapError .overlap
    return {
      file
      before := text
      text := String.ofList (Text.decodeLossy converted)
      outcomes
      diagnostics := [] }

/-- Converts a text. -/
def convert (settings : Settings) (file text : String) : Except ConversionFailure Conversion :=
  let u := CompilationUnit.ofString text
  if u.hasSyntaxErrors then
    .ok {
      file
      before := text
      text
      outcomes := []
      diagnostics := [⟨file, u.firstErrorLine, "file has syntax errors; not rewritten", .error⟩] }
  else convertUnit settings u file text

end MonoTap

import Mathlib.Data.List.Nodup
import MonoTap.Proofs.Accounts
import MonoTap.Proofs.MovedTurns

/-!
# Conversions and carriage returns

A text can be converted before or after a carriage return is put before each of its line feeds. The new
text is the same one with the carriage returns, and each site has the same outcome. Outcomes at one line
may change places, since sites are converted by size and carriage returns make them larger.
-/

set_option autoImplicit false

namespace MonoTap

open Imports (Registration)
open Java (CompilationUnit ParsesAlike PlainArguments)
open Text (Edit Ordered Source crlfText)

/-- The conversion of a text, and that of the text with a carriage return before each line feed. Outcomes
at different lines have the same order. -/
structure Conversion.Returned (r r' : Conversion) : Prop where
  file : r'.file = r.file
  before : r'.before = crlfText r.before
  text : r'.text = crlfText r.text
  outcomes : r'.outcomes.Perm (r.outcomes.map Outcome.crlf)
  inOrder : (r.outcomes.map Outcome.line).Nodup → r'.outcomes = r.outcomes.map Outcome.crlf
  diagnostics : r'.diagnostics = r.diagnostics.map Diagnostic.crlf

/-! ### Imports -/

theorem inLine_of_mem_listenerImports {name : String} (h : name ∈ listenerImports) :
    '\n' ∉ name.toList ∧ Ordered name.toList := by
  have plain : (listenerImports.all fun name => name.toList.all fun c =>
      c != '\n' && c != '\x0b' && c != '\x0c' && c != '\r') = true := by
    decide +kernel
  have each := List.all_eq_true.1 (List.all_eq_true.1 plain name h)
  simp only [Bool.and_eq_true, bne_iff_ne, and_assoc] at each
  constructor
  · intro mem
    exact (each '\n' mem).1 rfl
  · intro c hc
    exact (each c hc).2

/-- Each converted site asks for the same imports. -/
theorem Run.imports {settings : Settings} {source : List UInt8} {p q : Progress} {ts : List Turn}
    (h : Run settings source p ts q) :
    q.imports = (·.ensureAll listenerImports)^[(replacements ts).length] p.imports := by
  induction h with
  | done p => rfl
  | @turn p q site embedded outcome ts embeds settles more ih =>
    rw [ih, Progress.record, replacements, replacements, List.filterMap_cons, Turn.edit?]
    cases result : outcome.result with
    | error d => rfl
    | ok r =>
      dsimp only
      rw [imports_of_attempt settles result, List.length_cons, Function.iterate_succ_apply]

theorem ensureAll_iterate_crlf (s : Source) (r : Registration) (n : Nat) :
    (·.ensureAll listenerImports)^[n] (r.crlf s) =
      ((·.ensureAll listenerImports)^[n] r).crlf s := by
  have step : Function.Semiconj (Registration.crlf s) (·.ensureAll listenerImports)
      (·.ensureAll listenerImports) := fun r =>
    (Imports.ensureAll_crlf r fun name h => (inLine_of_mem_listenerImports h).1).symm
  exact ((step.iterate_right n) r).symm

/-! ### Outcomes -/

theorem byLine_perm (outcomes : List Outcome) : (byLine outcomes).Perm outcomes :=
  List.mergeSort_perm outcomes _

/-- Outcomes at different lines have only one order. -/
theorem byLine_crlf {outcomes outcomes' : List Outcome}
    (perm : (byLine outcomes').Perm ((byLine outcomes).map Outcome.crlf))
    (distinct : ((byLine outcomes).map Outcome.line).Nodup) :
    byLine outcomes' = (byLine outcomes).map Outcome.crlf := by
  have moved : ((byLine outcomes).map Outcome.crlf).Pairwise fun a b => a.line ≤ b.line :=
    List.pairwise_map.2 (byLine_pairwise outcomes)
  refine List.Perm.eq_of_pairwise (fun a b ha hb first second => ?_) (byLine_pairwise outcomes')
    moved perm
  obtain ⟨o, ho, rfl⟩ := List.mem_map.1 (perm.mem_iff.1 ha)
  obtain ⟨o', ho', rfl⟩ := List.mem_map.1 hb
  rw [List.inj_on_of_nodup_map distinct ho ho' (Nat.le_antisymm first second)]

/-! ### Both conversions -/

theorem Course.convert_eq {settings : Settings} {text file : String} {ts : List Turn}
    {done : Progress} (course : Course settings file text ts done)
    (clean : (CompilationUnit.ofString text).hasSyntaxErrors = false) :
    convert settings file text = concluded (CompilationUnit.ofString text) file text done := by
  have folded := course.run.foldlM_eq_ok
  rw [course.sites] at folded
  rw [convert, clean, if_neg Bool.false_ne_true]
  exact convertUnit_eq folded

section

variable {settings : Settings} {text file : String} {ts us : List Turn} {done done' : Progress}
  (course : Course settings file text ts done)
  (course' : Course settings file (crlfText text) us done')
  (clean : (CompilationUnit.ofString text).hasSyntaxErrors = false)
  (alike : ParsesAlike text) (plain : PlainArguments text)
  (old : Text.newlineOf (Source.ofString text).toBytes = "\n")
  (new : Text.newlineOf (Source.ofString text).crlf.toBytes = "\r\n")
include course course' clean alike plain old new

/-- The turns of both conversions, in the order of one of them. -/
theorem exists_pairs :
    ∃ vs, List.Forall₂ (Turn.Pairs (.ofString text)) ts vs ∧ vs.Perm us := by
  obtain ⟨sites, _⟩ := callSites_crlf file clean plain old new
  rw [← alike.ofString_crlfText clean] at sites
  have first : (ts.map Turn.site).Perm (callSites (CompilationUnit.ofString text) file).1 :=
    course.sites ▸ List.mergeSort_perm _ _
  have second : (us.map Turn.site).Perm
      (callSites (CompilationUnit.ofString (crlfText text)) file).1 :=
    course'.sites ▸ List.mergeSort_perm _ _
  obtain ⟨found, moved, perm⟩ := List.perm_comp_forall₂ first sites
  have own : List.Forall₂ (fun site u => site = Turn.site u) (us.map Turn.site) us :=
    List.forall₂_map_left_iff.2 (List.forall₂_same.2 fun _ _ => rfl)
  obtain ⟨vs, at', perm'⟩ := List.perm_comp_forall₂ (perm.trans second.symm) own
  have same : found = vs.map Turn.site := by
    rw [← List.forall₂_eq_eq_eq, List.forall₂_map_right_iff]
    exact at'
  rw [same, List.forall₂_map_left_iff, List.forall₂_map_right_iff] at moved
  exact ⟨vs, moved, perm'⟩

variable (step : '\n' ∉ settings.indent.toList) (inLine : '\n' ∉ settings.terminationName.toList)
include step inLine

theorem exists_moved_turns : ∃ vs,
    List.Forall₂ (fun t u => t.Pairs (.ofString text) u ∧ u.outcome = t.outcome.crlf) ts vs ∧
      vs.Perm us := by
  have clean' := alike.hasSyntaxErrors.trans clean
  obtain ⟨vs, paired, perm⟩ := exists_pairs course course' clean alike plain old new
  refine ⟨vs, List.forall₂_iff_zip.2 ⟨paired.length_eq, fun {t u} both => ?_⟩, perm⟩
  have pair := (List.forall₂_iff_zip.1 paired).2 both
  obtain ⟨ht, hu⟩ := List.of_mem_zip both
  exact ⟨pair, outcome_of_pairs course course' clean clean' paired perm step inLine ht
    (perm.mem_iff.1 hu) pair⟩

variable (regular : ∀ d ∈ (CompilationUnit.ofString text).imports, d.isStatic = false →
  Ordered d.name.toList)
include regular

/-- What is left to be done in the end. -/
theorem moved_done :
    done'.edits.Perm (done.edits.map (·.crlf (Source.ofString text).toBytes)) ∧
      done'.imports.edits (Source.ofString (crlfText text)) =
        (done.imports.edits (Source.ofString text)).map (·.crlf (Source.ofString text).toBytes) ∧
      (byLine done'.outcomes.reverse).Perm ((byLine done.outcomes.reverse).map Outcome.crlf) := by
  obtain ⟨vs, moved, perm⟩ :=
    exists_moved_turns course course' clean alike plain old new step inLine
  have unit := alike.ofString_crlfText clean
  refine ⟨?_, ?_, ?_⟩
  · rw [course'.after, course.after]
    exact topmost_replacements_moved course.followed moved perm
  · have count : (replacements us).length = (replacements ts).length := by
      have converted : (replacements us).Perm (replacements vs) := perm.symm.filterMap _
      rw [converted.length_eq, replacements_moved moved, List.length_map]
    have same : done'.imports = done.imports.crlf (.ofString text) := by
      rw [course'.run.imports, course.run.imports, count, ← ensureAll_iterate_crlf, unit]
      rfl
    rw [same, Source.ofString_crlfText]
    refine Imports.edits_crlf done.imports old new (fun name h => ?_) ?_
    · rcases course.run.pending h with none | wanted
      · cases none
      · exact inLine_of_mem_listenerImports wanted
    · rw [course.table]
      exact regular
  · have begins : (begun (CompilationUnit.ofString (crlfText text)) file).outcomes.reverse =
        (begun (CompilationUnit.ofString text) file).outcomes.reverse.map Outcome.crlf := by
      rw [begun, begun, List.reverse_reverse, List.reverse_reverse, unit]
      exact (callSites_crlf file clean plain old new).2
    have turns : vs.map Turn.outcome = (ts.map Turn.outcome).map Outcome.crlf := by
      rw [List.map_map, ← List.forall₂_eq_eq_eq, List.forall₂_map_left_iff,
        List.forall₂_map_right_iff]
      exact moved.flip.imp fun u t both => both.2
    refine (byLine_perm _).trans (.trans ?_ ((byLine_perm _).map _).symm)
    rw [course'.run.outcomes, course.run.outcomes, List.map_append, begins, ← turns]
    exact (perm.symm.map _).append_left _

/-- All edits that are left are made alike. -/
theorem applyEdits_moved (some : done.edits.isEmpty = false) :
    (Text.applyEdits (Source.ofString (crlfText text)).toBytes
        (done'.imports.edits (Source.ofString (crlfText text)) ++ done'.edits)).toOption =
      (Text.applyEdits (Source.ofString text).toBytes
        (done.imports.edits (Source.ofString text) ++ done.edits)).toOption.map
          Text.crlfBytes := by
  obtain ⟨edits, imports, _⟩ :=
    moved_done course course' clean alike plain old new step inLine regular
  have pending : Pending text.toList done.edits := course.after ▸ course.followed.pending
  have pending' : Pending (crlfText text).toList done'.edits :=
    course'.after ▸ course'.followed.pending
  have located : ∀ e ∈ done.imports.edits (Source.ofString text) ++ done.edits,
      e.Located 0 (Source.ofString text).toBytes.length := by
    have inserted := (fits_insertions clean course.table pending).1
    rw [insertions, some, if_neg Bool.false_ne_true] at inserted
    intro e he
    rcases List.mem_append.1 he with he | he
    · have located := (inserted e he).1.located
      rwa [Nat.zero_add, ← Text.encode_eq, ← Source.toBytes_ofString] at located
    · exact pending.located e he
  rw [← Text.applyEdits_crlfBytes located, Text.applyEdits,
    Text.inOrder_append_perm edits pending'.distinct, imports, ← List.map_append,
    Source.ofString_crlfText, Source.toBytes_crlf, Text.applyEdits]

/-- What both conversions end with. -/
theorem rel_concluded :
    Option.Rel Conversion.Returned
      (concluded (CompilationUnit.ofString text) file text done).toOption
      (concluded (CompilationUnit.ofString (crlfText text)) file (crlfText text) done').toOption := by
  obtain ⟨edits, _, outcomes⟩ :=
    moved_done course course' clean alike plain old new step inLine regular
  have empty : done'.edits.isEmpty = done.edits.isEmpty := by
    rw [edits.isEmpty_eq, List.isEmpty_map]
  rw [concluded, concluded, empty]
  cases none : done.edits.isEmpty with
  | true =>
    rw [if_pos rfl, if_pos rfl]
    exact .some ⟨rfl, rfl, rfl, outcomes, byLine_crlf outcomes, rfl⟩
  | false =>
    have made := applyEdits_moved course course' clean alike plain old new step inLine regular none
    rw [if_neg Bool.false_ne_true, if_neg Bool.false_ne_true]
    show Option.Rel _ (((Text.applyEdits (Source.ofString text).toBytes
        (done.imports.edits (Source.ofString text) ++ done.edits)).mapError _).map _).toOption
      (((Text.applyEdits (Source.ofString (crlfText text)).toBytes
        (done'.imports.edits (Source.ofString (crlfText text)) ++ done'.edits)).mapError
          _).map _).toOption
    cases applied : Text.applyEdits (Source.ofString text).toBytes
        (done.imports.edits (Source.ofString text) ++ done.edits) <;>
      cases applied' : Text.applyEdits (Source.ofString (crlfText text)).toBytes
          (done'.imports.edits (Source.ofString (crlfText text)) ++ done'.edits) <;>
        rw [applied, applied'] at made
    · exact .none
    · cases made
    · cases made
    · rename_i bytes bytes'
      obtain rfl : bytes' = Text.crlfBytes bytes := Option.some.inj made
      refine .some ⟨rfl, rfl, ?_, outcomes, byLine_crlf outcomes, rfl⟩
      show String.ofList _ = crlfText (String.ofList _)
      rw [Text.decodeLossy_crlfBytes, crlfText, String.toList_ofList]

end

/-- A text in lines that end in line feeds can be converted before or after a carriage return is put
before each of them, unless a line comment stands among the arguments of a type. -/
theorem convert_crlfText (settings : Settings) (file text : String)
    (step : '\n' ∉ settings.indent.toList) (inLine : '\n' ∉ settings.terminationName.toList)
    (feeds : '\n' ∈ text.toList) (returns : '\r' ∉ text.toList) (alike : ParsesAlike text)
    (plain : PlainArguments text)
    (regular : ∀ d ∈ (CompilationUnit.ofString text).imports, d.isStatic = false →
      Ordered d.name.toList) :
    Option.Rel Conversion.Returned (convert settings file text).toOption
      (convert settings file (crlfText text)).toOption := by
  have bytes : (Source.ofString text).toBytes = Text.encodeChars text.toList := by
    rw [Source.toBytes_ofString, Text.encode_eq]
  have old : Text.newlineOf (Source.ofString text).toBytes = "\n" := by
    refine Text.newlineOf_of_not_mem fun mem => returns ?_
    rw [bytes] at mem
    exact Text.mem_of_mem_encodeChars (by decide) mem
  have new : Text.newlineOf (Source.ofString text).crlf.toBytes = "\r\n" := by
    rw [Source.toBytes_crlf, bytes]
    refine Text.newlineOf_crlfBytes (List.mem_flatMap.2 ⟨'\n', feeds, ?_⟩)
    decide
  cases clean : (CompilationUnit.ofString text).hasSyntaxErrors with
  | true =>
    have clean' := alike.hasSyntaxErrors.trans clean
    have line : (CompilationUnit.ofString (crlfText text)).firstErrorLine =
        (CompilationUnit.ofString text).firstErrorLine := by
      show (Java.parse (crlfText text).toList).firstErrorLine (Source.ofString (crlfText text)) = _
      rw [alike, Source.ofString_crlfText, Java.Node.firstErrorLine_crlf]
      rfl
    rw [convert, convert, clean, clean', if_pos rfl, if_pos rfl, line]
    have message : crlfText "file has syntax errors; not rewritten" =
      "file has syntax errors; not rewritten" := Text.crlfText_of_not_mem (by decide)
    refine .some ⟨rfl, rfl, rfl, .nil, fun _ => rfl, ?_⟩
    rw [List.map_singleton, Diagnostic.crlf, message]
  | false =>
    have clean' := alike.hasSyntaxErrors.trans clean
    obtain ⟨ts, done, course⟩ := exists_course clean settings file
    obtain ⟨us, done', course'⟩ := exists_course clean' settings file
    rw [course.convert_eq clean, course'.convert_eq clean']
    exact rel_concluded course course' clean alike plain old new step inLine regular

set_option maxRecDepth 100000 in
theorem convert_crlfText_call_after_import :
    '\n' ∉ (Settings.indent default).toList ∧ '\n' ∉ (Settings.terminationName default).toList ∧
      '\n' ∈ importedText.toList ∧ '\r' ∉ importedText.toList ∧ ParsesAlike importedText ∧
      PlainArguments importedText ∧
      (∀ d ∈ (CompilationUnit.ofString importedText).imports, d.isStatic = false →
        Ordered d.name.toList) ∧
      ∃ r r', convert default "src/C.java" importedText = .ok r ∧
        convert default "src/C.java" (crlfText importedText) = .ok r' ∧ r.convertedCount = 1 ∧
        r.Returned r' := by
  have step : '\n' ∉ (Settings.indent default).toList := by decide +kernel
  have inLine : '\n' ∉ (Settings.terminationName default).toList := by decide +kernel
  have quick := Text.toList_eq_charsOf importedText
  obtain ⟨feeds, returns⟩ : '\n' ∈ importedText.toList ∧ '\r' ∉ importedText.toList := by
    rw [quick]
    decide +kernel
  -- the text is parsed once for all that is read off it
  obtain ⟨alike, plain, names⟩ : ParsesAlike importedText ∧ PlainArguments importedText ∧
      ((CompilationUnit.ofString importedText).imports.all fun d =>
        d.name.toList.all fun c => c != '\x0b' && c != '\x0c' && c != '\r') = true := by
    rw [ParsesAlike, PlainArguments, CompilationUnit.ofString_eq_ofCharsOf, Text.toList_crlfText,
      quick]
    decide +kernel
  have regular : ∀ d ∈ (CompilationUnit.ofString importedText).imports, d.isStatic = false →
      Ordered d.name.toList := by
    intro d hd _ c hc
    have other := List.all_eq_true.1 (List.all_eq_true.1 names d hd) c hc
    simpa only [Bool.and_eq_true, bne_iff_ne, and_assoc] using other
  refine ⟨step, inLine, feeds, returns, alike, plain, regular, ?_⟩
  have related := convert_crlfText default "src/C.java" importedText step inLine feeds returns alike
    plain regular
  obtain ⟨_, _, r, converted, number⟩ := exists_convert_importedText
  rw [converted] at related
  cases again : convert default "src/C.java" (crlfText importedText) with
  | error failure =>
    rw [again] at related
    cases related
  | ok r' =>
    rw [again] at related
    cases related with
    | some own => exact ⟨r, r', converted, rfl, number, own⟩

end MonoTap

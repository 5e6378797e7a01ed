import MonoTap.Migration.Engine
import MonoTap.Proofs.Turns

/-!
# Verdicts

What a report says is said about the final texts: that of a file which changed is the new one, and that
of any other file its own. Since the files have different names, the gates find for every file the text
that belongs to it.
-/

set_option autoImplicit false

/-! ### Entries under different names -/

namespace MonoTap.Document.Keyed

variable {α β : Type}

/-- A value under a key that is not among the first entries goes into the others. -/
theorem put_append {key : String} {first : List (String × α)} (other : key ∉ first.map Prod.fst)
    (value : α) (rest : List (String × α)) :
    put key value (first ++ rest) = first ++ put key value rest := by
  induction first with
  | nil => rfl
  | cons e first ih =>
    obtain ⟨k, v⟩ := e
    rw [List.map_cons, List.mem_cons, not_or] at other
    have differs : (k == key) = false := beq_eq_false_iff_ne.2 fun same => other.1 same.symm
    rw [List.cons_append, put, differs, if_neg Bool.false_ne_true, ih other.2, List.cons_append]

/-- A new key comes last. -/
theorem put_of_notMem {key : String} {value : α} {entries : List (String × α)}
    (new : key ∉ entries.map Prod.fst) : put key value entries = entries ++ [(key, value)] := by
  have h := put_append new value []
  rwa [List.append_nil] at h

theorem putAll_append (new more entries : List (String × α)) :
    putAll (new ++ more) entries = putAll more (putAll new entries) :=
  List.foldl_append

/-- Values under new keys are entered in order. -/
theorem putAll_of_disjoint {new entries : List (String × α)}
    (distinct : ((entries ++ new).map Prod.fst).Nodup) : putAll new entries = entries ++ new := by
  induction new generalizing entries with
  | nil => exact (List.append_nil entries).symm
  | cons e new ih =>
    obtain ⟨k, v⟩ := e
    have fresh : k ∉ entries.map Prod.fst := by
      rw [List.map_append, List.nodup_append] at distinct
      exact fun mem => distinct.2.2 k mem k List.mem_cons_self rfl
    rw [List.append_cons] at distinct ⊢
    show putAll new (put k v entries) = _
    rw [put_of_notMem fresh, ih distinct]

/-- Values under some of the keys, in order, take the places of the earlier ones. -/
theorem putAll_filter {xs : List β} {key : β → String} (distinct : (xs.map key).Nodup)
    (later : β → Bool) (old new : β → α) :
    putAll ((xs.filter later).map fun x => (key x, new x)) (xs.map fun x => (key x, old x)) =
      xs.map fun x => (key x, if later x then new x else old x) := by
  suffices after : ∀ first : List (String × α), (∀ x ∈ xs, key x ∉ first.map Prod.fst) →
      putAll ((xs.filter later).map fun x => (key x, new x))
          (first ++ xs.map fun x => (key x, old x)) =
        first ++ xs.map fun x => (key x, if later x then new x else old x) from
    after [] fun _ _ => List.not_mem_nil
  -- The entries before the one whose turn it is have their last values.
  induction xs with
  | nil => exact fun _ _ => rfl
  | cons x xs ih =>
    intro first apart
    rw [List.map_cons, List.nodup_cons] at distinct
    obtain ⟨other, distinct⟩ := distinct
    have further (value : α) : ∀ y ∈ xs, key y ∉ (first ++ [(key x, value)]).map Prod.fst := by
      intro y mem inside
      rw [List.map_append, List.mem_append, List.map_singleton, List.mem_singleton] at inside
      rcases inside with inside | same
      · exact apart y (List.mem_cons_of_mem x mem) inside
      · exact other (List.mem_map.2 ⟨y, mem, same⟩)
    cases turn : later x with
    | false =>
      rw [List.filter_cons_of_neg (by rw [turn]; exact Bool.false_ne_true), List.map_cons,
        List.append_cons, ih distinct _ (further (old x)), List.map_cons, turn,
        if_neg Bool.false_ne_true, List.append_assoc, List.singleton_append]
    | true =>
      have placed : put (key x) (new x) (first ++ (key x, old x) :: xs.map fun x => (key x, old x)) =
          first ++ [(key x, new x)] ++ xs.map fun x => (key x, old x) := by
        rw [put_append (apart x List.mem_cons_self), put, beq_self_eq_true, if_pos rfl,
          List.append_assoc, List.singleton_append]
      rw [List.filter_cons_of_pos turn, List.map_cons, List.map_cons]
      show putAll _ (put (key x) (new x) (first ++ _)) = _
      rw [placed, ih distinct _ (further (new x)), List.map_cons, turn, if_pos rfl,
        List.append_assoc, List.singleton_append]

end MonoTap.Document.Keyed

namespace MonoTap.Lane

open Document (Keyed.put Keyed.putAll)
open Java (CompilationUnit)

variable {α : Type}

/-! ### The mean of scores -/

theorem Sums.exists_add (s : Sums) (x y : Number.Binary64) :
    ∃ sums, s.add (.real x) (.real y) = .ok sums := ⟨_, rfl⟩

/-- Scores and weights that are floating-point numbers have a mean. -/
theorem exists_aggregate {scored : List (Scalar × Scalar)}
    (real : ∀ p ∈ scored, ∃ x y, p = (.real x, .real y)) : ∃ mean, aggregate scored = .ok mean := by
  suffices sum : ∀ start : Sums, ∃ sums,
      scored.foldlM (fun (s : Sums) p => s.add p.1 p.2) start = .ok sums by
    obtain ⟨sums, h⟩ := sum Sums.start
    refine ⟨sums.mean, ?_⟩
    show (scored.foldlM (fun (s : Sums) p => s.add p.1 p.2) Sums.start).map Sums.mean = _
    rw [h]
    rfl
  induction scored with
  | nil => exact fun start => ⟨start, rfl⟩
  | cons p scored ih =>
    intro start
    obtain ⟨x, y, rfl⟩ := real p List.mem_cons_self
    obtain ⟨next, added⟩ := start.exists_add x y
    obtain ⟨sums, rest⟩ := ih (fun q hq => real q (List.mem_cons_of_mem _ hq)) next
    refine ⟨sums, ?_⟩
    rw [List.foldlM_cons]
    show (start.add (.real x) (.real y) >>= _) = _
    rw [added]
    exact rest

/-! ### The gates -/

/-- The final text of a file is the text put out for it, or else its own. -/
theorem finalTexts_eq {files : List α} {path : α → String} (distinct : (files.map path).Nodup)
    (old new : α → String) (changed : α → Bool) :
    finalTexts (files.map fun f => ⟨path f, some (old f)⟩)
        ((files.filter changed).map fun f => ⟨path f, some (new f)⟩) =
      files.map fun f => (path f, some (if changed f then new f else old f)) := by
  have keys : (([] ++ files.map fun f => (path f, some (old f))).map Prod.fst).Nodup := by
    rwa [List.nil_append, List.map_map]
  rw [finalTexts, List.map_append, List.map_map, List.map_map]
  show Keyed.putAll ((files.map fun f => (path f, some (old f))) ++
    (files.filter changed).map fun f => (path f, some (new f))) [] = _
  rw [Document.Keyed.putAll_append, Document.Keyed.putAll_of_disjoint keys, List.nil_append,
    Document.Keyed.putAll_filter distinct changed (fun f => some (old f)) fun f => some (new f)]
  refine List.map_congr_left fun f _ => ?_
  cases changed f <;> rfl

/-- The files with eligible calls are found, in order. -/
theorem remainingCalls_map (files : List α) (path text : α → String) :
    remainingCalls (files.map fun f => (path f, some (text f))) =
      some ((files.filter fun f => !(eligibleCalls (.ofString (text f))).isEmpty).map fun f =>
        (path f, callLines (text f))) := by
  induction files with
  | nil => rfl
  | cons f files ih =>
    rw [List.map_cons, remainingCalls, ih, Option.map_some, List.filter_cons]
    cases none : eligibleCalls (CompilationUnit.ofString (text f)) with
    | nil =>
      have lines : callLines (text f) = [] := by rw [callLines, none]; rfl
      rw [lines]
      rfl
    | cons call calls =>
      have lines : callLines (text f) =
          (CompilationUnit.ofString (text f)).source.line call.node.start ::
            calls.map fun c => (CompilationUnit.ofString (text f)).source.line c.node.start := by
        rw [callLines, none]
        rfl
      rw [lines, List.isEmpty_cons, Bool.not_false, if_pos rfl, List.map_cons, lines]

/-- The texts with syntax errors are found, in order. -/
theorem brokenFiles_map {files : List α} {path : α → String} (text : α → String)
    {found : List (String × Nat)} (distinct : (found.map Prod.fst ++ files.map path).Nodup) :
    brokenFiles (files.map fun f => ⟨path f, some (text f)⟩) found =
      some (found ++ (files.filter fun f => (CompilationUnit.ofString (text f)).hasSyntaxErrors).map
        fun f => (path f, (CompilationUnit.ofString (text f)).firstErrorLine)) := by
  induction files generalizing found with
  | nil => exact congrArg some (List.append_nil found).symm
  | cons f files ih =>
    have rest : (found.map Prod.fst ++ files.map path).Nodup :=
      distinct.sublist ((List.sublist_cons_self _ _).append_left _)
    rw [List.map_cons, brokenFiles, firstFault?, List.filter_cons]
    cases broken : (CompilationUnit.ofString (text f)).hasSyntaxErrors with
    | false =>
      rw [if_neg Bool.false_ne_true, if_neg Bool.false_ne_true]
      exact ih rest
    | true =>
      rw [if_pos rfl, if_pos rfl, List.map_cons, List.append_cons]
      have new : path f ∉ found.map Prod.fst := fun mem =>
        (List.nodup_append.1 distinct).2.2 (path f) mem (path f) List.mem_cons_self rfl
      dsimp only
      rw [Document.Keyed.put_of_notMem new, ih]
      rwa [List.map_append, List.map_singleton, List.append_assoc, List.singleton_append]

end MonoTap.Lane

namespace MonoTap

open Java (CompilationUnit)

/-- The text that a file ends up with: the new one if there is a change, and its own otherwise. -/
def FileMigration.finalText (m : FileMigration) : String :=
  if m.changed then m.result.text else m.result.before

/-- The files whose final texts hold eligible calls, with the lines of all these. -/
def leftovers (files : List FileMigration) : List (String × List Nat) :=
  (files.filter fun m => !(eligibleCalls (.ofString m.finalText)).isEmpty).map fun m =>
    (m.file, Lane.callLines m.finalText)

/-- The changed files whose new texts have syntax errors, with the line of the first one. -/
def breakages (files : List FileMigration) : List (String × Nat) :=
  ((files.filter FileMigration.changed).filter fun m =>
    (CompilationUnit.ofString m.result.text).hasSyntaxErrors).map fun m =>
      (m.file, (CompilationUnit.ofString m.result.text).firstErrorLine)

theorem leftovers_isEmpty_iff {files : List FileMigration} :
    (leftovers files).isEmpty = true ↔ ∀ m ∈ files, eligibleCalls (.ofString m.finalText) = [] := by
  rw [List.isEmpty_iff, leftovers, List.map_eq_nil_iff, List.filter_eq_nil_iff]
  refine forall₂_congr fun m _ => ?_
  rw [Bool.not_eq_true', Bool.not_eq_false, List.isEmpty_iff]

theorem breakages_isEmpty_iff {files : List FileMigration} :
    (breakages files).isEmpty = true ↔ ∀ m ∈ files, m.changed = true →
      (CompilationUnit.ofString m.result.text).hasSyntaxErrors = false := by
  rw [List.isEmpty_iff, breakages, List.map_eq_nil_iff, List.filter_eq_nil_iff]
  simp only [List.mem_filter, and_imp, Bool.not_eq_true]

/-- The texts put out are those of the files that changed. -/
theorem outputs_eq {files : List FileMigration} (named : ∀ m ∈ files, m.result.file = m.file) :
    ((files.filterMap fun m => Lane.tap.summary? m.file m.result).map fun s =>
        (⟨s.path, some s.text⟩ : Lane.FileText)) =
      (files.filter FileMigration.changed).map fun m => ⟨m.file, some m.result.text⟩ := by
  induction files with
  | nil => rfl
  | cons m files ih =>
    have rest := ih fun n hn => named n (List.mem_cons_of_mem m hn)
    have own := named m List.mem_cons_self
    rw [List.filterMap_cons, List.filter_cons, FileMigration.changed, Lane.summary?]
    cases m.result.changed with
    | false => exact rest
    | true =>
      rw [if_pos rfl, if_pos rfl, List.map_cons, List.map_cons, rest, own]

theorem exists_confidence (files : List FileMigration) :
    ∃ confidence, Lane.aggregate ((files.filterMap fun m => Lane.tap.summary? m.file m.result).map
      fun s => (s.confidence, Lane.unitWeight)) = .ok confidence := by
  refine Lane.exists_aggregate fun p hp => ?_
  obtain ⟨s, hs, rfl⟩ := List.mem_map.1 hp
  obtain ⟨m, _, summarized⟩ := List.mem_filterMap.1 hs
  rw [Lane.summary?] at summarized
  split at summarized
  · cases summarized
    exact ⟨_, _, rfl⟩
  · cases summarized

theorem exists_report (files : List FileMigration) :
    ∃ report, Lane.tap.report files = .ok report ∧ report.files = files := by
  obtain ⟨confidence, mean⟩ := exists_confidence files
  rw [Lane.report, mean]
  exact ⟨_, rfl, rfl⟩

/-- What is reported on files with different names, each converted under its own one: the gates find what
there is to find in the final texts. -/
theorem report_of_files {files : List FileMigration}
    (named : ∀ m ∈ files, m.result.file = m.file) (distinct : (files.map FileMigration.file).Nodup) :
    ∃ confidence, Lane.tap.report files = .ok {
      lane := Lane.tap.id
      files
      gates := [
        { name := Lane.noDeprecatedCalls.definition.name
          lane := Lane.tap.id
          passed := (leftovers files).isEmpty
          blocking := true
          category := .parity
          findings := .calls files.length (leftovers files) },
        { name := Lane.syntaxGate.definition.name
          lane := Lane.tap.id
          passed := (breakages files).isEmpty
          blocking := true
          category := .compile
          findings := .faults (files.filter FileMigration.changed).length (breakages files) }]
      confidence } := by
  obtain ⟨confidence, mean⟩ := exists_confidence files
  refine ⟨confidence, ?_⟩
  have changedDistinct : (([] : List (String × Nat)).map Prod.fst ++
      (files.filter FileMigration.changed).map FileMigration.file).Nodup :=
    distinct.sublist (List.filter_sublist.map _)
  have calls : Lane.noDeprecatedCalls.run (files.map fun m => ⟨m.file, some m.result.before⟩)
      ((files.filter FileMigration.changed).map fun m => ⟨m.file, some m.result.text⟩) =
        some ⟨(leftovers files).isEmpty, .calls files.length (leftovers files)⟩ := by
    show Lane.noCallsLeft _ _ = _
    rw [Lane.noCallsLeft, Lane.finalTexts_eq distinct (fun m => m.result.before)
      (fun m => m.result.text) FileMigration.changed, Lane.remainingCalls_map, List.length_map]
    rfl
  have faults : Lane.syntaxGate.run (files.map fun m => ⟨m.file, some m.result.before⟩)
      ((files.filter FileMigration.changed).map fun m => ⟨m.file, some m.result.text⟩) =
        some ⟨(breakages files).isEmpty,
          .faults (files.filter FileMigration.changed).length (breakages files)⟩ := by
    show Lane.syntaxClean [] _ = _
    rw [Lane.syntaxClean, Lane.brokenFiles_map (fun m => m.result.text) changedDistinct,
      List.length_map]
    rfl
  rw [Lane.report]
  rw [mean, outputs_eq named]
  show Except.ok (⟨_, _, [Lane.Gate.result _ _ _ Lane.noDeprecatedCalls,
    Lane.Gate.result _ _ _ Lane.syntaxGate], _⟩ : Report) = _
  rw [Lane.Gate.result, Lane.Gate.result, calls, faults]
  rfl

/-- Texts that are migrated one by one keep their names and are kept as they were. -/
theorem files_of_mapM {e : Engine} {sources : List (String × String)} {files : List FileMigration}
    (migrated : sources.mapM (fun s => e.migrateText s.1 s.2) = .ok files) :
    files.map (fun m => (m.file, m.result.before)) = sources ∧
      ∀ m ∈ files, m.result.file = m.file := by
  induction sources generalizing files with
  | nil =>
    cases migrated
    exact ⟨rfl, fun m hm => (by cases hm)⟩
  | cons s sources ih =>
    rw [List.mapM_cons] at migrated
    cases converted : convert e.settings s.1 s.2 with
    | error failure =>
      rw [Engine.migrateText, converted] at migrated
      cases migrated
    | ok r =>
      cases more : sources.mapM fun s => e.migrateText s.1 s.2 with
      | error failure =>
        rw [Engine.migrateText, converted, more] at migrated
        cases migrated
      | ok rest =>
        rw [Engine.migrateText, converted, more] at migrated
        cases migrated
        obtain ⟨same, named⟩ := ih more
        obtain ⟨file, before⟩ := names_of_convert converted
        refine ⟨?_, ?_⟩
        · rw [List.map_cons, same, before]
        · intro m hm
          rcases List.mem_cons.1 hm with rfl | hm
          · exact file
          · exact named m hm

/-- If no text changes, the calls left over are those of the texts. -/
theorem exists_files_of_unchanged {settings : Settings} {sources : List (String × String)}
    (unchanged : ∀ s ∈ sources,
      (convert settings s.1 s.2).toOption.map Conversion.changed = some false) :
    ∃ files,
      sources.mapM (fun s => Engine.migrateText ⟨Lane.tap, settings⟩ s.1 s.2) = .ok files ∧
      leftovers files = (sources.filter fun s => !(eligibleCalls (.ofString s.2)).isEmpty).map
        fun s => (s.1, Lane.callLines s.2) := by
  induction sources with
  | nil => exact ⟨[], rfl, rfl⟩
  | cons s sources ih =>
    have own := unchanged s List.mem_cons_self
    obtain ⟨rest, more, left⟩ := ih fun t ht => unchanged t (List.mem_cons_of_mem s ht)
    cases converted : convert settings s.1 s.2 with
    | error failure =>
      rw [converted] at own
      cases own
    | ok r =>
      rw [converted] at own
      have same : r.changed = false := Option.some.inj own
      have final : FileMigration.finalText ⟨s.1, r, false⟩ = s.2 := by
        rw [FileMigration.finalText, FileMigration.changed, same, if_neg Bool.false_ne_true,
          (names_of_convert converted).2]
      refine ⟨⟨s.1, r, false⟩ :: rest, ?_, ?_⟩
      · rw [List.mapM_cons, Engine.migrateText, converted, more]
        rfl
      · rw [leftovers, List.filter_cons, List.filter_cons, final]
        split
        · rw [List.map_cons, List.map_cons, final, ← left]
          rfl
        · exact left

/-- A text with a call that cannot be converted, and one without calls. -/
def leftoverSources : List (String × String) :=
  [("A.java", "import reactor.core.publisher.Mono;\nclass C \x7b\n  void f(Mono<String> m) \x7b\n" ++
      "    m.doAfterSuccessOrError(g);\n  \x7d\n\x7d\n"),
    ("B.java", "class B \x7b\x7d\n")]

end MonoTap

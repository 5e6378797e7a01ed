import Mathlib.Data.List.Pairwise
import MonoTap.Proofs.Accounts
import MonoTap.Proofs.FileTrees
import MonoTap.Proofs.Verdicts

/-!
# Runs over trees of files

A run over a tree lists the source files first and then migrates them one by one. Each is read as it was
before the run, since none is listed twice, and is written back if that is asked for and its text has
changed. No other file changes.
-/

set_option autoImplicit false

namespace MonoTap.Engine

open Files (Entry)
open Files.Entry (Place)

variable {e : Engine} {tree : Entry} {root path : String} {write : Bool}

/-! ### One file -/

/-- What a run makes of one of the listed files. -/
def treated (e : Engine) (tree : Entry) (root : String) (write : Bool) (path : String) :
    Except EngineFailure FileMigration :=
  let file := shownName path (some (relativePath tree root path))
  match readText tree path with
  | .error reason => .ok (unreadable file reason)
  | .ok text => (e.migrateText file text).map fun m => { m with written := write && m.changed }

theorem treated_of_error {reason : String} (unread : readText tree path = .error reason) :
    e.treated tree root write path =
      .ok (unreadable (shownName path (some (relativePath tree root path))) reason) := by
  rw [treated, unread]

theorem treated_of_ok {file text : String} {r : Conversion} (read : readText tree path = .ok text)
    (shown : shownName path (some (relativePath tree root path)) = file)
    (converted : convert e.settings file text = .ok r) :
    e.treated tree root write path = .ok ⟨file, r, write && r.changed⟩ := by
  rw [treated, read]
  dsimp only
  rw [shown, migrateText, converted]
  rfl

theorem run_migrateFile (display : Option String) (now : Entry) :
    (e.migrateFile path write display).run.run now =
      match readText now path with
      | .error reason => (.ok (unreadable (shownName path display) reason), now)
      | .ok text =>
        match e.migrateText (shownName path display) text with
        | .error failure => (.error failure, now)
        | .ok m =>
          if write && m.changed then
            match now.write path (Text.encode m.result.text) with
            | .ok after => (.ok { m with written := true }, after)
            | .error fault => (.error (.unwritable path fault), now)
          else (.ok m, now) := by
  rw [migrateFile]
  show StateT.run (ExceptT.run
    (match readText now path with | .error reason => _ | .ok text => _)) now = _
  cases readText now path with
  | error reason => rfl
  | ok text =>
    dsimp only
    cases e.migrateText (shownName path display) text with
    | error failure => rfl
    | ok m =>
      show StateT.run (ExceptT.run (if (write && m.changed) = true then _ else _)) now = _
      dsimp only
      split
      · show StateT.run (ExceptT.run (match now.write path (Text.encode m.result.text) with
          | .ok after => _ | .error fault => _)) now = _
        cases now.write path (Text.encode m.result.text) <;> rfl
      · rfl

/-- Whether a path leads to the place with the given names. -/
def leadsTo (tree : Entry) (path : String) (names : List String) : Bool :=
  (tree.locate path).toOption.any fun p => p.names == names

theorem leadsTo_iff {names : List String} :
    leadsTo tree path names = true ↔ ∃ p, tree.locate path = .ok p ∧ p.names = names := by
  rw [leadsTo]
  cases tree.locate path with
  | error fault => exact ⟨fun h => (by cases h), fun ⟨_, h, _⟩ => (by cases h)⟩
  | ok p =>
    show (p.names == names) = true ↔ _
    rw [beq_iff_eq]
    exact ⟨fun h => ⟨p, rfl, h⟩, fun ⟨_, same, h⟩ => by cases same; exact h⟩

/-- The bytes that are in a listed file after its turn. -/
def leftIn (e : Engine) (tree : Entry) (root : String) (write : Bool) (path : String)
    (bytes : List UInt8) : List UInt8 :=
  match e.treated tree root write path with
  | .ok m => if m.written then Text.encode m.result.text else bytes
  | .error _ => bytes

/-- The bytes under some names after the turns of some paths, from those that were there before. -/
def leftBy (e : Engine) (tree : Entry) (root : String) (write : Bool) (paths : List String)
    (before : List String → List UInt8 → List UInt8) (names : List String) (bytes : List UInt8) :
    List UInt8 :=
  match paths.find? fun path => leadsTo tree path names with
  | some path => e.leftIn tree root write path bytes
  | none => before names bytes

/-- The bytes in a file after a run: those of its new text if it was written, and its own otherwise. -/
def left (e : Engine) (tree : Entry) (root : String) (write : Bool) :
    List String → List UInt8 → List UInt8 :=
  e.leftBy tree root write (e.sourceFiles tree root) fun _ bytes => bytes

variable {f : List String → List UInt8 → List UInt8} {m : FileMigration}

theorem readText_revise (same : ∀ p bytes, tree.locate path = .ok p → p.entry = .file bytes →
    f p.names bytes = bytes) : readText (tree.revise f) path = readText tree path := by
  rw [readText, readText, Entry.read_revise same]

theorem readText_of_read {text : String} (h : tree.read path = .ok (Text.encode text)) :
    readText tree path = .ok text := by
  rw [readText, h]
  dsimp only
  rw [Text.decode_encode]

theorem exists_locate_of_readText {text : String} (h : readText tree path = .ok text) :
    ∃ p bytes, tree.locate path = .ok p ∧ p.entry = .file bytes := by
  rw [readText] at h
  cases read : tree.read path with
  | error fault =>
    rw [read] at h
    cases h
  | ok bytes =>
    obtain ⟨p, led, file⟩ := Entry.exists_locate_of_read read
    exact ⟨p, bytes, led, file⟩

theorem written_of_migrateText {file text : String} (h : e.migrateText file text = .ok m) :
    m.written = false := by
  rw [migrateText] at h
  split at h
  · cases h
    rfl
  · cases h

theorem leftIn_of_written (treated : e.treated tree root write path = .ok m) (bytes : List UInt8) :
    e.leftIn tree root write path bytes =
      if m.written then Text.encode m.result.text else bytes := by
  rw [leftIn, treated]

/-- What comes of a file: it cannot be read, or its text is migrated and counts as written if it is to be
and has changed. -/
theorem treated_eq_ok (h : e.treated tree root write path = .ok m) :
    (∃ reason, readText tree path = .error reason ∧
      m = unreadable (shownName path (some (relativePath tree root path))) reason) ∨
    ∃ text own, readText tree path = .ok text ∧
      e.migrateText (shownName path (some (relativePath tree root path))) text = .ok own ∧
      m = { own with written := write && own.changed } := by
  unfold treated at h
  cases read : readText tree path with
  | error reason =>
    rw [read] at h
    exact .inl ⟨reason, rfl, (Except.ok.inj h).symm⟩
  | ok text =>
    rw [read] at h
    dsimp only at h
    cases migrated : e.migrateText (shownName path (some (relativePath tree root path))) text with
    | error failure =>
      rw [migrated] at h
      cases h
    | ok own =>
      rw [migrated] at h
      exact .inr ⟨text, own, rfl, migrated, (Except.ok.inj h).symm⟩

theorem leftBy_singleton (treated : e.treated tree root write path = .ok m)
    (names : List String) (bytes : List UInt8) : e.leftBy tree root write [path] f names bytes =
      if leadsTo tree path names then if m.written then Text.encode m.result.text else bytes
      else f names bytes := by
  rw [leftBy, List.find?_cons, List.find?_nil]
  cases leadsTo tree path names with
  | false => rfl
  | true => exact leftIn_of_written treated bytes

/-- The turn of a file that is as it was before the run. -/
theorem run_migrateFile_revise (proper : tree.Proper)
    (treated : e.treated tree root write path = .ok m)
    (same : ∀ p bytes, tree.locate path = .ok p → p.entry = .file bytes → f p.names bytes = bytes) :
    (e.migrateFile path write (some (relativePath tree root path))).run.run (tree.revise f) =
      (.ok m, tree.revise (e.leftBy tree root write [path] f)) := by
  have after := leftBy_singleton (f := f) treated
  have stay (unwritten : m.written = false) :
      tree.revise f = tree.revise (e.leftBy tree root write [path] f) := by
    refine proper.revise_congr fun names bytes found => ?_
    rw [after, unwritten, if_neg Bool.false_ne_true]
    split
    · rename_i leads
      obtain ⟨p, led, rfl⟩ := leadsTo_iff.1 leads
      rw [(Entry.in_of_locate led).at?] at found
      exact same p bytes led (Option.some.inj found)
    · rfl
  rw [run_migrateFile, readText_revise same]
  rcases treated_eq_ok treated with ⟨reason, read, rfl⟩ | ⟨text, own, read, migrated, rfl⟩
  · rw [read, ← stay rfl]
  · rw [read]
    dsimp only
    rw [migrated]
    dsimp only
    cases asked : write && own.changed with
    | false =>
      have unwritten := written_of_migrateText migrated
      rw [if_neg Bool.false_ne_true, ← stay asked, ← unwritten]
    | true =>
      obtain ⟨p, old, led, file⟩ := exists_locate_of_readText read
      have here : e.leftBy tree root write [path] f p.names old = Text.encode own.result.text := by
        rw [after, leadsTo_iff.2 ⟨p, led, rfl⟩, if_pos rfl, asked, if_pos rfl]
      have elsewhere : ∀ other, other ≠ p.names →
          e.leftBy tree root write [path] f other = f other := by
        intro other differs
        funext bytes
        rw [after, if_neg]
        rw [leadsTo_iff]
        rintro ⟨q, ledAgain, same⟩
        rw [led] at ledAgain
        cases ledAgain
        exact differs same.symm
      rw [if_pos rfl, proper.write_revise led file here elsewhere]

/-! ### All files -/

/-- Paths that lead to different places. -/
def Apart (tree : Entry) (path other : String) : Prop :=
  ∀ p q, tree.locate path = .ok p → tree.locate other = .ok q → p.names ≠ q.names

theorem run_bind_of_ok {α β : Type} {x : TreeRun α} {k : α → TreeRun β} {a : α} {now after : Entry}
    (h : x.run.run now = (.ok a, after)) : (x >>= k).run.run now = (k a).run.run after := by
  rw [ExceptT.run_bind, StateT.run_bind, h]
  rfl

theorem leadsTo_eq_false {paths : List String} (apart : ∀ other ∈ paths, Apart tree path other)
    {other : String} (mem : other ∈ paths) {names : List String}
    (leads : leadsTo tree other names = true) : leadsTo tree path names = false := by
  rw [← Bool.not_eq_true]
  intro also
  obtain ⟨p, led, rfl⟩ := leadsTo_iff.1 also
  obtain ⟨q, ledOther, same⟩ := leadsTo_iff.1 leads
  exact apart other mem p q led ledOther same.symm

/-- One path and then some others leave what all of them leave. -/
theorem leftBy_cons {paths : List String} (apart : ∀ other ∈ paths, Apart tree path other) :
    e.leftBy tree root write paths (e.leftBy tree root write [path] f) =
      e.leftBy tree root write (path :: paths) f := by
  funext names bytes
  rw [leftBy, leftBy, leftBy, List.find?_cons, List.find?_nil, List.find?_cons]
  cases found : paths.find? fun path => leadsTo tree path names with
  | none =>
    cases leadsTo tree path names <;> rfl
  | some other =>
    have leads := List.find?_some found
    rw [leadsTo_eq_false apart (List.mem_of_find?_eq_some found) leads]

/-- The turns of files that are as they were before the run. -/
theorem run_mapM_migrateFile (proper : tree.Proper) {paths : List String}
    (apart : paths.Pairwise (Apart tree))
    (treated : ∀ path ∈ paths, ∃ m, e.treated tree root write path = .ok m)
    (same : ∀ path ∈ paths, ∀ p bytes, tree.locate path = .ok p → p.entry = .file bytes →
      f p.names bytes = bytes) :
    ∃ files, (paths.mapM fun path =>
        e.migrateFile path write (some (relativePath tree root path))).run.run (tree.revise f) =
          (.ok files, tree.revise (e.leftBy tree root write paths f)) ∧
      files.map .ok = paths.map (e.treated tree root write) := by
  induction paths generalizing f with
  | nil => exact ⟨[], rfl, rfl⟩
  | cons path paths ih =>
    obtain ⟨own, apart⟩ := List.pairwise_cons.1 apart
    obtain ⟨m, made⟩ := treated path List.mem_cons_self
    have first := run_migrateFile_revise proper made (same path List.mem_cons_self)
    -- The turn of the first file has left the others as they were.
    have others : ∀ other ∈ paths, ∀ p bytes, tree.locate other = .ok p → p.entry = .file bytes →
        e.leftBy tree root write [path] f p.names bytes = bytes := by
      intro other mem p bytes led file
      rw [leftBy_singleton made, leadsTo_eq_false own mem (leadsTo_iff.2 ⟨p, led, rfl⟩),
        if_neg Bool.false_ne_true]
      exact same other (List.mem_cons_of_mem path mem) p bytes led file
    obtain ⟨files, run, all⟩ := ih apart (fun other mem =>
      treated other (List.mem_cons_of_mem path mem)) others
    refine ⟨m :: files, ?_, ?_⟩
    · rw [List.mapM_cons, run_bind_of_ok first, run_bind_of_ok run, leftBy_cons own]
      rfl
    · rw [List.map_cons, List.map_cons, all, made]

/-- The files that a path stands for are at different places. -/
theorem pairwise_sourceFiles (proper : tree.Proper) :
    (e.sourceFiles tree root).Pairwise (Apart tree) := by
  rw [sourceFiles]
  split
  · exact List.Pairwise.nil
  · rename_i place led
    split
    · exact List.pairwise_singleton _ _
    · rename_i entries kind
      have inner : (Entry.directory entries).Proper :=
        kind ▸ (Entry.in_of_locate led).proper proper
      have nonempty : root.toList ≠ [] := by
        intro empty
        rw [← String.ofList_toList (s := root), Entry.locate_ofList, if_pos (.inl empty)] at led
        cases led
      rw [Entry.search_eq, List.pairwise_map]
      refine inner.nodup_found.imp_of_mem fun {names others} hnames hothers differ => ?_
      intro p q ledNames ledOthers
      obtain ⟨base, hbase, ownNames⟩ := Entry.names_of_locate_pathBelow nonempty
        (inner.isName_of_mem_found hnames).2 ledNames
      obtain ⟨baseAgain, hagain, otherNames⟩ := Entry.names_of_locate_pathBelow nonempty
        (inner.isName_of_mem_found hothers).2 ledOthers
      rw [hbase] at hagain
      cases hagain
      rw [ownNames, otherNames]
      exact fun same => differ (List.append_cancel_left same)

theorem left_of_mem (proper : tree.Proper) (mem : path ∈ e.sourceFiles tree root) {p : Place}
    (led : tree.locate path = .ok p) (bytes : List UInt8) :
    e.left tree root write p.names bytes = e.leftIn tree root write path bytes := by
  have leads := leadsTo_iff.2 ⟨p, led, rfl⟩
  rw [left, leftBy]
  cases found : (e.sourceFiles tree root).find? fun path => leadsTo tree path p.names with
  | none => exact absurd leads (List.find?_eq_none.1 found path mem)
  | some other =>
    by_cases same : other = path
    · rw [same]
    · have also := List.find?_some found
      obtain ⟨q, ledOther, names⟩ := leadsTo_iff.1 also
      have symmetric : Std.Symm (Apart tree) := ⟨fun _ _ apart p q hp hq => (apart q p hq hp).symm⟩
      have apart := (pairwise_sourceFiles proper).forall (List.mem_of_find?_eq_some found) mem same
      exact absurd names (apart q p ledOther led)

/-- What a listed file holds after a run. -/
theorem read_of_treated (proper : tree.Proper) (mem : path ∈ e.sourceFiles tree root)
    (treated : e.treated tree root write path = .ok m) :
    (tree.revise (e.left tree root write)).read path =
      if m.written then .ok (Text.encode m.result.text) else tree.read path := by
  cases written : m.written with
  | false =>
    rw [if_neg Bool.false_ne_true]
    refine Entry.read_revise fun p bytes led _ => ?_
    rw [left_of_mem proper mem led, leftIn_of_written treated, written, if_neg Bool.false_ne_true]
  | true =>
    rcases treated_eq_ok treated with ⟨reason, _, rfl⟩ | ⟨text, own, read, _, _⟩
    · cases written
    · obtain ⟨p, bytes, led, file⟩ := exists_locate_of_readText read
      rw [if_pos rfl, Entry.read_revise_of_locate led file, left_of_mem proper mem led,
        leftIn_of_written treated, written, if_pos rfl]

theorem written_of_treated (treated : e.treated tree root write path = .ok m) :
    m.written = (write && m.changed) := by
  rcases treated_eq_ok treated with ⟨reason, _, rfl⟩ | ⟨text, own, _, _, rfl⟩
  · exact (Bool.and_false write).symm
  · rfl

theorem file_unreadable (file reason : String) : (unreadable file reason).file = file := rfl

theorem diagnostics_unreadable (file reason : String) :
    (unreadable file reason).diagnostics =
      [⟨file, 0, "cannot read file: " ++ reason, .error⟩] := by
  simp only [FileMigration.diagnostics, unreadable, Conversion.allDiagnostics, List.flatMap_nil,
    List.mergeSort_nil, List.append_nil]

/-- A file that cannot be read is reported with an error. -/
theorem diagnostics_of_unreadable {reason : String} (unread : readText tree path = .error reason)
    (treated : e.treated tree root write path = .ok m) :
    m.diagnostics = [⟨m.file, 0, "cannot read file: " ++ reason, .error⟩] := by
  rcases treated_eq_ok treated with ⟨found, read, made⟩ | ⟨text, _, read, _, _⟩
  · have same : found = reason := Except.error.inj (read.symm.trans unread)
    rw [made, diagnostics_unreadable, same, file_unreadable]
  · rw [unread] at read
    cases read

/-- A run over a proper tree whose source texts can be converted. Of the tree afterwards only the bytes of
files are others: those of the listed files that are to be written and whose texts changed, and they are
the bytes of the new texts. The report has what comes of each listed file, in order. -/
theorem run_migrateTree (settings : Settings) (tree : Entry) (proper : tree.Proper) (root : String)
    (write : Bool) :
    let e : Engine := ⟨Lane.tap, settings⟩
    (∀ path ∈ e.sourceFiles tree root, ∀ text, readText tree path = .ok text →
      ∃ r, convert settings (shownName path (some (relativePath tree root path))) text = .ok r) →
    ∃ report, (e.migrateTree root write).run.run tree =
        (.ok report, tree.revise (e.left tree root write)) ∧
      report.files.map .ok = (e.sourceFiles tree root).map (e.treated tree root write) ∧
      (∀ path ∈ e.sourceFiles tree root, ∀ m, e.treated tree root write path = .ok m →
        m.written = (write && m.changed) ∧
        (tree.revise (e.left tree root write)).read path =
          (if m.written then .ok (Text.encode m.result.text) else tree.read path) ∧
        ∀ reason, readText tree path = .error reason →
          m.diagnostics = [⟨m.file, 0, "cannot read file: " ++ reason, .error⟩]) ∧
      (write = false → tree.revise (e.left tree root write) = tree) := by
  intro e converts
  have treated : ∀ path ∈ e.sourceFiles tree root, ∃ m,
      e.treated tree root write path = .ok m := by
    intro path mem
    cases read : readText tree path with
    | error reason => exact ⟨_, treated_of_error read⟩
    | ok text =>
      obtain ⟨r, converted⟩ := converts path mem text read
      exact ⟨_, treated_of_ok read rfl converted⟩
  have whole : tree.revise (fun _ bytes => bytes) = tree := proper.revise_eq_self fun _ _ _ => rfl
  obtain ⟨files, run, all⟩ := run_mapM_migrateFile (f := fun _ bytes => bytes) proper
    (pairwise_sourceFiles proper) treated fun _ _ _ _ _ _ => rfl
  rw [whole] at run
  obtain ⟨report, reported, same⟩ := exists_report files
  refine ⟨report, ?_, ?_, ?_, ?_⟩
  · have own : e.lane.report files = .ok report := reported
    have begun : (get : TreeRun Entry).run.run tree = (.ok tree, tree) := rfl
    rw [migrateTree, run_bind_of_ok begun, run_bind_of_ok run, own]
    rfl
  · rw [same, all]
  · intro path mem m made
    exact ⟨written_of_treated made, read_of_treated proper mem made, fun reason unread =>
      diagnostics_of_unreadable unread made⟩
  · rintro rfl
    refine proper.revise_eq_self fun names bytes _ => ?_
    rw [left, leftBy]
    split
    · rename_i path found
      obtain ⟨m, made⟩ := treated path (List.mem_of_find?_eq_some found)
      rw [leftIn_of_written made, written_of_treated made, Bool.false_and,
        if_neg Bool.false_ne_true]
    · rfl

/-- A file that is no text, and a source file in a directory. -/
def sampleTree : Entry :=
  .directory [("B.java", .file [255]),
    ("src", .directory [("C.java", .file (Text.encode importedText))])]

theorem proper_sampleTree : sampleTree.Proper := by
  have source : (Entry.directory [("C.java", .file (Text.encode importedText))]).Proper :=
    .directory (by decide) (by decide)
      (List.forall_mem_cons.2 ⟨.file _, fun _ mem => by cases mem⟩)
  exact .directory (by decide) (by decide) (List.forall_mem_cons.2
    ⟨.file _, List.forall_mem_cons.2 ⟨source, fun _ mem => by cases mem⟩⟩)

theorem sourceFiles_sampleTree :
    (⟨Lane.tap, default⟩ : Engine).sourceFiles sampleTree "." = ["./B.java", "./src/C.java"] := by
  have led : sampleTree.locate "." = .ok ⟨sampleTree, []⟩ := rfl
  have single {α : Type} (a : String × α) : Entry.byName [a] = [a] := List.mergeSort_singleton a
  have sorted {α : Type} (a b : String × α) (h : a.1 ≤ b.1) : Entry.byName [a, b] = [a, b] :=
    List.mergeSort_of_pairwise (List.pairwise_pair.2 (decide_eq_true h))
  have own : Entry.byName [("B.java", Entry.file [255]),
      ("src", .directory [("C.java", .file (Text.encode importedText))])] = _ :=
    sorted _ _ (by decide)
  rw [sourceFiles, led]
  show Entry.search _ _ _ (.directory _) = _
  simp only [Entry.search, Entry.searchAll, Entry.ownFiles, own, single]
  decide +kernel

theorem run_migrateTree_sample :
    let e : Engine := ⟨Lane.tap, default⟩
    sampleTree.Proper ∧
    (∀ path ∈ e.sourceFiles sampleTree ".", ∀ text, readText sampleTree path = .ok text →
      ∃ r, convert default (shownName path (some (relativePath sampleTree "." path))) text =
        .ok r) ∧
    ∃ report after r, (e.migrateTree "." true).run.run sampleTree = (.ok report, after) ∧
      convert default "src/C.java" importedText = .ok r ∧ r.changed = true ∧
      after.read "./src/C.java" = .ok (Text.encode r.text) ∧ after.read "./B.java" = .ok [255] := by
  intro e
  obtain ⟨clean, _, r, converted, number⟩ := exists_convert_importedText
  have changed : r.changed = true := by
    obtain ⟨ts, done, course⟩ := exists_course clean default "src/C.java"
    exact (course.changed_iff clean converted).2 (r.exists_converted (by omega))
  have shown : shownName "./src/C.java" (some (relativePath sampleTree "." "./src/C.java")) =
      "src/C.java" := by decide +kernel
  obtain ⟨reason, unread⟩ : ∃ reason, readText sampleTree "./B.java" = .error reason := by
    have none : (readText sampleTree "./B.java").toOption = none := by decide +kernel
    cases found : readText sampleTree "./B.java" with
    | error reason => exact ⟨reason, rfl⟩
    | ok text =>
      rw [found] at none
      cases none
  have read : readText sampleTree "./src/C.java" = .ok importedText := readText_of_read rfl
  have listed := sourceFiles_sampleTree
  have converts : ∀ path ∈ e.sourceFiles sampleTree ".", ∀ text,
      readText sampleTree path = .ok text →
        ∃ r, convert default (shownName path (some (relativePath sampleTree "." path))) text =
          .ok r := by
    intro path mem text found
    rw [listed] at mem
    rcases List.mem_cons.1 mem with rfl | mem
    · rw [unread] at found
      cases found
    · cases List.mem_singleton.1 mem
      rw [read] at found
      cases found
      exact ⟨r, shown ▸ converted⟩
  obtain ⟨report, run, _, each, _⟩ :=
    run_migrateTree default sampleTree proper_sampleTree "." true converts
  have second := (each "./src/C.java" (listed ▸ List.mem_cons_of_mem _ List.mem_cons_self)
    _ (treated_of_ok read shown converted)).2.1
  have first := (each "./B.java" (listed ▸ List.mem_cons_self)
    _ (treated_of_error unread)).2.1
  refine ⟨proper_sampleTree, converts, report, _, r, run, converted, changed, ?_, first⟩
  rw [second, changed, Bool.true_and, if_pos rfl]

end MonoTap.Engine

import MonoTap.Proofs.Turns

/-!
# The edits of a whole text

A conversion ends by making the edits that are left together with the insertions of imports. An
insertion stands at the beginning of the text, after the package, after an import, or at the start
of the line of an import. All edits can be made exactly if no insertion falls inside one of the
others.
-/

set_option autoImplicit false

namespace MonoTap

open Imports (Registration Table)
open Java (CompilationUnit ImportDeclaration Node Solid)
open Text (Boundary Edit Overlap Source Spliced encode encodeChars inOrder)

/-! ### Where imports are inserted -/

namespace Imports

/-- An insertion at one of the places that the declarations of a unit give. -/
inductive IsPlace (source : Source) (table : Table) : Nat → Prop
  | opening : IsPlace source table 0
  | afterPackage {p : Java.PackageDeclaration} (h : table.package = some p) :
      IsPlace source table p.stop
  | afterImport {d : ImportDeclaration} (h : d ∈ table.imports) : IsPlace source table d.stop
  | beforeImport {d : ImportDeclaration} (h : d ∈ table.imports) :
      IsPlace source table (source.lineStart d.start)

theorem mem_edits {r : Registration} {source : Source} {e : Edit} (h : e ∈ r.edits source) :
    ∃ offset text, e = insertion offset text ∧ IsPlace source r.table offset := by
  unfold Registration.edits at h
  split at h
  · cases h
  · dsimp only at h
    split at h
    · cases List.mem_singleton.1 h
      unfold openingInsertion
      dsimp only
      split
      · rename_i stop found
        obtain ⟨p, hp, rfl⟩ := Option.map_eq_some_iff.1 found
        exact ⟨_, _, rfl, .afterPackage hp⟩
      · exact ⟨_, _, rfl, .opening⟩
    · rename_i last hlast
      have lastMem := List.mem_of_getLast? hlast
      split at h
      · rename_i regular hregular
        have fewer : ∀ d ∈ r.table.imports.filter (!·.isStatic), d ∈ r.table.imports :=
          fun d hd => (List.mem_filter.1 hd).1
        split at h
        · obtain ⟨name, _, rfl⟩ := List.mem_map.1 h
          unfold sortedInsertion
          split
          · rename_i next hnext
            exact ⟨_, _, rfl, .beforeImport (fewer next (List.mem_of_find?_eq_some hnext))⟩
          · exact ⟨_, _, rfl, .afterImport (fewer regular (List.mem_of_getLast? hregular))⟩
        · cases List.mem_singleton.1 h
          exact ⟨_, _, rfl, .afterImport lastMem⟩
      · cases List.mem_singleton.1 h
        exact ⟨_, _, rfl, .afterImport lastMem⟩

theorem table_ensure (r : Registration) (name : String) : (r.ensure name).table = r.table := by
  unfold Registration.ensure
  split <;> rfl

theorem table_ensureAll (r : Registration) (names : List String) :
    (r.ensureAll names).table = r.table := by
  unfold Registration.ensureAll
  induction names generalizing r with
  | nil => rfl
  | cons name names ih => rw [List.foldl_cons, ih, table_ensure]

end Imports

/-! ### What a conversion keeps -/

variable {settings : Settings} {source : List UInt8} {p q : Progress} {ts : List Turn}

/-- A conversion does not change what is known of the package and the imports of the text. -/
theorem Run.table (h : Run settings source p ts q) : q.imports.table = p.imports.table := by
  induction h with
  | done p => rfl
  | @turn p q site embedded outcome ts embeds settles more ih =>
    rw [ih, Progress.record]
    split
    · rfl
    · exact Imports.table_ensureAll _ _

/-- A conversion has one outcome for each turn. -/
theorem Run.outcomes (h : Run settings source p ts q) :
    q.outcomes.reverse = p.outcomes.reverse ++ ts.map Turn.outcome := by
  induction h with
  | done p => exact (List.append_nil _).symm
  | @turn p q site embedded outcome ts embeds settles more ih =>
    have recorded : (p.record site outcome).outcomes = outcome :: p.outcomes := by
      rw [Progress.record]
      split <;> rfl
    rw [ih, recorded, List.reverse_cons, List.append_assoc]
    rfl

/-! ### The declarations of a text -/

/-- A declaration of a package or an import. -/
def isDeclaration (n : Node) : Bool :=
  n.is .packageDeclaration || n.is .importDeclaration

theorem exists_of_mem_imports {text : String} {d : ImportDeclaration}
    (h : d ∈ (CompilationUnit.ofString text).imports) :
    ∃ n ∈ (Java.parse text.toList).namedChildren, isDeclaration n = true ∧ d.start = n.start ∧
      d.stop = n.stop := by
  obtain ⟨n, hn, made⟩ := List.mem_filterMap.1 h
  refine ⟨n, hn, ?_⟩
  rw [ImportDeclaration.ofNode?] at made
  split at made
  · rename_i isImport
    obtain ⟨name, _, rfl⟩ := Option.map_eq_some_iff.1 made
    exact ⟨by rw [isDeclaration, isImport, Bool.or_true], rfl, rfl⟩
  · cases made

theorem exists_of_package {text : String} {p : Java.PackageDeclaration}
    (h : (CompilationUnit.ofString text).package = some p) :
    ∃ n ∈ (Java.parse text.toList).namedChildren, isDeclaration n = true ∧ p.stop = n.stop := by
  obtain ⟨n, found, rfl⟩ := Option.map_eq_some_iff.1 h
  rw [Node.ofKind?] at found
  have isPackage := List.find?_some found
  refine ⟨n, List.mem_of_find?_eq_some found, ?_, rfl⟩
  rw [isDeclaration, isPackage, Bool.true_or]

section

variable {text : String} (clean : (CompilationUnit.ofString text).hasSyntaxErrors = false)
include clean

theorem boundary_of_isPlace {offset : Nat}
    (h : Imports.IsPlace (Source.ofString text) (.ofUnit (CompilationUnit.ofString text)) offset) :
    Boundary 0 text.toList offset := by
  have spans {n : Node} (hn : n ∈ (Java.parse text.toList).namedChildren) :
      Solid text.toList n.start n.stop :=
    (Node.belongs_of_mem_parse clean (Node.mem_children_of_mem_namedChildren hn)).spans
  cases h with
  | opening => exact .start 0 _
  | afterPackage known =>
    obtain ⟨n, hn, _, stop⟩ := exists_of_package known
    exact stop ▸ (spans hn).last
  | afterImport known =>
    obtain ⟨n, hn, _, _, stop⟩ := exists_of_mem_imports known
    exact stop ▸ (spans hn).last
  | beforeImport known =>
    obtain ⟨n, hn, _, start, _⟩ := exists_of_mem_imports known
    exact (Text.boundary_lineStart (start ▸ (spans hn).first)).1

end

/-! ### The end of a conversion -/

/-- The imports that a conversion inserts: none if no site was converted. -/
def insertions (u : CompilationUnit) (done : Progress) : List Edit :=
  if done.edits.isEmpty then [] else done.imports.edits u.source

section

variable {text : String} (clean : (CompilationUnit.ofString text).hasSyntaxErrors = false)
  {done : Progress} (table : done.imports.table = .ofUnit (CompilationUnit.ofString text))
include clean table

theorem exists_of_mem_insertions {e : Edit}
    (h : e ∈ insertions (CompilationUnit.ofString text) done) :
    ∃ offset text', e = Imports.insertion offset text' ∧ Imports.IsPlace (Source.ofString text)
      (.ofUnit (CompilationUnit.ofString text)) offset ∧ Boundary 0 text.toList offset := by
  unfold insertions at h
  split at h
  · cases h
  · obtain ⟨offset, inserted, rfl, place⟩ := Imports.mem_edits h
    rw [table] at place
    exact ⟨offset, inserted, rfl, place, boundary_of_isPlace clean place⟩

/-- The insertions of a text, and the other edits, fit in it. -/
theorem fits_insertions (pending : Pending text.toList done.edits) :
    (∀ i ∈ insertions (CompilationUnit.ofString text) done,
      i.Fits 0 text.toList ∧ i.stop = i.start) ∧ ∀ e ∈ done.edits, e.Fits 0 text.toList := by
  constructor
  · intro i hi
    obtain ⟨offset, inserted, rfl, _, boundary⟩ := exists_of_mem_insertions clean table hi
    exact ⟨⟨offset, offset, rfl, rfl, Nat.le_refl _, boundary, boundary⟩, rfl⟩
  · intro e he
    obtain ⟨start, stop, hstart, hstop, spans⟩ := pending.spans e he
    exact ⟨start, stop, hstart, hstop, Nat.le_of_lt spans.wide, spans.first, spans.last⟩

/-- Insertions and other edits can be made together exactly if no insertion falls inside one of the
others. Then the text becomes another text. -/
theorem applyEdits_eq_ok_iff (pending : Pending text.toList done.edits) :
    ((∃ result, Text.applyEdits (Source.ofString text).toBytes
        (insertions (CompilationUnit.ofString text) done ++ done.edits) = .ok result) ↔
      ∀ i ∈ insertions (CompilationUnit.ofString text) done, ∀ e ∈ done.edits, ¬ i.Cuts e) ∧
    ∀ result, Text.applyEdits (Source.ofString text).toBytes
        (insertions (CompilationUnit.ofString text) done ++ done.edits) = .ok result →
      Spliced 0 (inOrder (insertions (CompilationUnit.ofString text) done ++ done.edits))
        (encode text) (encode (String.ofList (Text.decodeLossy result))) := by
  have size : (Source.ofString text).toBytes.length = (encodeChars text.toList).length := by
    rw [Source.toBytes_ofString, Text.encode_eq]
  obtain ⟨inserting, fits⟩ := fits_insertions clean table pending
  have located {e : Edit} (h : e.Fits 0 text.toList) :
      e.Located 0 (Source.ofString text).toBytes.length := by
    rw [size, ← Nat.zero_add (encodeChars text.toList).length]
    exact h.located
  have insertionsLocated : ∀ i ∈ insertions (CompilationUnit.ofString text) done,
      i.Located 0 (Source.ofString text).toBytes.length ∧ i.stop = i.start :=
    fun i hi => ⟨located (inserting i hi).1, (inserting i hi).2⟩
  have editsLocated : ∀ e ∈ done.edits, e.Located 0 (Source.ofString text).toBytes.length :=
    fun e he => located (fits e he)
  have possible := Text.applyEdits_insertions_iff insertionsLocated editsLocated pending.wide
    pending.apart
  refine ⟨possible, fun result made => ?_⟩
  have inLine := Text.inLine_inOrder_insertions (Nat.zero_le _) insertionsLocated editsLocated
    pending.wide pending.apart (possible.1 ⟨result, made⟩)
  obtain ⟨again, same, spliced⟩ := Text.splice_eq_ok inLine
  have agree : Except.ok result = Except.ok again := made.symm.trans same
  cases agree
  rw [List.drop_zero, Source.toBytes_ofString, Text.encode_eq] at spliced
  obtain ⟨ds, rfl⟩ := spliced.exists_chars fun e he => by
    rcases List.mem_append.1 (Text.mem_inOrder.1 he) with h | h
    · exact (inserting e h).1
    · exact fits e h
  rw [Text.decodeLossy_encodeChars, Text.encode_ofList, Text.encode_eq]
  exact spliced

/-- A conversion ends with a text exactly if no insertion falls inside one of the other edits, and then
all of them are made. -/
theorem concluded_eq_ok_iff (pending : Pending text.toList done.edits) (file : String) :
    ((∃ conversion, concluded (CompilationUnit.ofString text) file text done = .ok conversion) ↔
      ∀ i ∈ insertions (CompilationUnit.ofString text) done, ∀ e ∈ done.edits, ¬ i.Cuts e) ∧
    ∀ conversion, concluded (CompilationUnit.ofString text) file text done = .ok conversion →
      conversion.outcomes = byLine done.outcomes.reverse ∧
      Spliced 0 (inOrder (insertions (CompilationUnit.ofString text) done ++ done.edits))
        (encode text) (encode conversion.text) := by
  obtain ⟨possible, spliced⟩ := applyEdits_eq_ok_iff clean table pending
  have opened : concluded (CompilationUnit.ofString text) file text done =
      if done.edits.isEmpty then .ok ⟨file, text, text, byLine done.outcomes.reverse, []⟩
      else ((Text.applyEdits (Source.ofString text).toBytes
        (done.imports.edits (Source.ofString text) ++ done.edits)).mapError .overlap).map
          fun converted => ⟨file, text, String.ofList (Text.decodeLossy converted),
            byLine done.outcomes.reverse, []⟩ := rfl
  cases none : done.edits.isEmpty with
  | true =>
    have nothing : done.edits = [] := List.isEmpty_iff.1 none
    have noImport : insertions (CompilationUnit.ofString text) done = [] := by
      rw [insertions, none, if_pos rfl]
    rw [opened, none, if_pos rfl, noImport, nothing]
    refine ⟨⟨fun _ i hi => (by cases hi), fun _ => ⟨_, rfl⟩⟩, ?_⟩
    intro conversion same
    cases same
    rw [List.append_nil, Text.inOrder_nil]
    exact ⟨rfl, .rest _ _⟩
  | false =>
    have imports : insertions (CompilationUnit.ofString text) done =
        done.imports.edits (Source.ofString text) := by
      rw [insertions, none, if_neg Bool.false_ne_true]
      rfl
    rw [opened, none, if_neg Bool.false_ne_true, ← imports, ← possible]
    cases made : Text.applyEdits (Source.ofString text).toBytes
      (insertions (CompilationUnit.ofString text) done ++ done.edits) with
    | error o =>
      refine ⟨⟨fun ⟨_, h⟩ => (by cases h), fun ⟨_, h⟩ => (by cases h)⟩, fun _ h => ?_⟩
      cases h
    | ok result =>
      refine ⟨⟨fun _ => ⟨result, rfl⟩, fun _ => ⟨_, rfl⟩⟩, fun conversion same => ?_⟩
      cases same
      exact ⟨rfl, spliced result made⟩

end

/-! ### The course of a conversion -/

/-- How a text without syntax errors is converted: by turns, one for each call site, smaller sites
first. At every turn the edits to make are those of the sites converted so far that lie in no other
one. In the end they are made together with the insertions of imports, unless an insertion falls
inside one of them. -/
structure Course (settings : Settings) (file text : String) (ts : List Turn) (done : Progress) :
    Prop where
  run : Run settings (Source.ofString text).toBytes (begun (CompilationUnit.ofString text) file) ts
    done
  sites : ts.map Turn.site = innermostFirst (callSites (CompilationUnit.ofString text) file).1
  settled : ∀ t ∈ ts, t.IsSettled settings (CompilationUnit.ofString text) file
  followed : Followed text.toList (replacements ts) []
  before : ∀ earlier t later, ts = earlier ++ t :: later →
    t.before.edits = topmost (replacements earlier)
  after : done.edits = topmost (replacements ts)
  table : done.imports.table = .ofUnit (CompilationUnit.ofString text)
  possible : (∃ conversion, convert settings file text = .ok conversion) ↔
    ∀ i ∈ insertions (CompilationUnit.ofString text) done, ∀ e ∈ done.edits, ¬ i.Cuts e
  outcomes : ∀ conversion, convert settings file text = .ok conversion → conversion.outcomes =
    byLine ((callSites (CompilationUnit.ofString text) file).2 ++ ts.map Turn.outcome)
  spliced : ∀ conversion, convert settings file text = .ok conversion →
    Spliced 0 (inOrder (insertions (CompilationUnit.ofString text) done ++ done.edits))
      (encode text) (encode conversion.text)

theorem exists_course {text : String}
    (clean : (CompilationUnit.ofString text).hasSyntaxErrors = false) (settings : Settings)
    (file : String) : ∃ ts done, Course settings file text ts done := by
  obtain ⟨ts, done, run, same, consistent, settled, result⟩ := exists_turns clean settings file
  obtain ⟨followed, before, after⟩ := consistent
  simp only [List.nil_append] at followed before after
  have pending : Pending text.toList done.edits := after ▸ followed.pending
  have table : done.imports.table = .ofUnit (CompilationUnit.ofString text) := run.table
  obtain ⟨possible, made⟩ := concluded_eq_ok_iff clean table pending file
  rw [← result] at possible made
  refine ⟨ts, done, run, same, settled, followed, before, after, table, possible, ?_,
    fun conversion h => (made conversion h).2⟩
  intro conversion h
  rw [(made conversion h).1, run.outcomes, begun, List.reverse_reverse]

/-- Each turn of a conversion is at a call site of the text. -/
theorem Course.exists_isSite {settings : Settings} {text file : String} {ts : List Turn}
    {done : Progress} (course : Course settings file text ts done) {t : Turn} (ht : t ∈ ts) :
    ∃ call parameters block, IsSite (CompilationUnit.ofString text) file call parameters block
      t.site := by
  obtain ⟨call, parameters, block, isSite, _⟩ := course.settled t ht
  exact ⟨call, parameters, block, isSite⟩

end MonoTap

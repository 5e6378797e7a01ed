import MonoTap.Proofs.Acceptance
import MonoTap.Proofs.Emission
import MonoTap.Proofs.Insertions

/-!
# The bodies of a listener

A converted site becomes a listener that holds every statement of the callback once, in one of its
methods, and holds nothing else but the comments that stand alone. In each method the statements
keep their order.
-/

set_option autoImplicit false

namespace MonoTap

open Callback (Grouped Resolution leafNodes)
open Java (CompilationUnit Node)
open Text (Edit EndsSolid Source Spliced encode inOrder splitAt trim)

/-- How a site is converted with some edits made before. The slots of the pieces group the leaves of
the callback, so each statement is in one piece, with the comments attached to it. A piece is the
text of its slot with the edits made that lie in it, and is laid out line by line. Each piece is in
one method. -/
structure Emits (settings : Settings) (source : Source) (edits : List Edit) (site : CallSite)
    (r : Resolution) (block : Node) (elementType : String) (pieces : List Piece) (text : String) :
    Prop where
  leaves : Grouped r (pieces.map Piece.slot) (leafNodes site.parameters r block)
  statements : pieces.filterMap (·.slot.statement) =
    (leafNodes site.parameters r block).filter (!·.isComment)
  spliced : ∀ q ∈ pieces, Spliced q.slot.start
    (inOrder (edits.filter (·.within q.slot.start q.slot.stop)))
    (source.slice q.slot.start q.slot.stop) (encode q.text)
  lines : ∀ q ∈ pieces, (q.emitted.lines (site.layout settings).body).map trim =
    (splitAt '\n' q.text.toList).map trim
  once : (settings.methodOrder.flatMap fun b => pieces.filter (·.bucket = b)).Perm pieces
  text : text = String.ofList (Text.joinWith (site.layout settings).newline
    ("tap(() -> new DefaultSignalListener<>() \x7b".toList ::
      List.intercalate [[]] (settings.methodOrder.map fun b =>
        Listener.methodLines (site.layout settings) (site.names settings elementType)
          (emittedIn pieces b) b) ++
      [(site.layout settings).base ++ "\x7d)".toList]))

/-- The statements of some slots are those of the nodes that they group. -/
theorem Callback.Grouped.filterMap_statement {r : Resolution} {ss : List Callback.Slot}
    {ns : List Node} (h : Grouped r ss ns) :
    ss.filterMap Callback.Slot.statement = ns.filter (!·.isComment) := by
  induction h with
  | nil => rfl
  | @cons s ss first others ns holds more ih =>
    rw [List.filter_append, holds.statement, ← ih, List.filterMap_cons]
    cases s.statement <;> rfl

/-- What a settled site is replaced by ends with a line that is not blank. -/
theorem Settled.endsSolid {settings : Settings} {source : Source} {edits : List Edit}
    {site : CallSite} {r : Resolution} {block : Node} {outcome : Outcome}
    {replacement : Replacement} (h : Settled settings source r block edits site outcome)
    (converted : outcome.result = .ok replacement) : EndsSolid replacement.text.toList := by
  unfold Settled at h
  split at h
  · rw [Outcome.converted, converted] at h
    cases h
  · obtain ⟨found, pieces, result, dealt, text⟩ := h
    rw [converted] at result
    cases result
    rw [text]
    exact Listener.endsSolid_render _ _ _

/-- A settled site that is converted emits the leaves of its callback. -/
theorem Settled.emits {settings : Settings} {source : Source} {edits : List Edit}
    {site : CallSite} {r : Resolution} {block : Node} {outcome : Outcome}
    {replacement : Replacement} {cs : List Char}
    (h : Settled settings source r block edits site outcome)
    (converted : outcome.result = .ok replacement) (belongs : block.Belongs cs)
    (valid : settings.Valid) (base : Text.allBlank site.indentText.toList = true)
    (put : ∀ e ∈ edits, EndsSolid e.replacement.toList) :
    ∃ elementType pieces, site.elementType = .ok elementType ∧
      Emits settings source edits site r block elementType pieces replacement.text := by
  unfold Settled at h
  split at h
  · rw [Outcome.converted, converted] at h
    cases h
  · rename_i elementType known
    obtain ⟨found, pieces, result, dealt, text⟩ := h
    rw [converted] at result
    cases result
    have grouped : Grouped r (pieces.map Piece.slot) (leafNodes site.parameters r block) :=
      dealt.slots ▸ Callback.grouped_leafSlots belongs
    have indented : Text.allBlank (site.layout settings).body = true := by
      have body : (site.layout settings).body =
          site.indentText.toList ++ settings.indent.toList ++ settings.indent.toList := rfl
      have blank := valid.indentBlank
      rw [Text.allBlank] at base blank ⊢
      rw [body, List.all_append, List.all_append, base, blank]
      rfl
    refine ⟨elementType, pieces, known, grouped, ?_, dealt.spliced, fun q hq => ?_, ?_, ?_⟩
    · rw [← grouped.filterMap_statement, List.filterMap_map]
      rfl
    · exact Listener.map_trim_reindent indented q.indent (dealt.solid put q hq)
    · exact (valid.order.flatMap_right _).trans (Callback.flatMap_filter_perm Piece.bucket pieces)
    · rw [text, Listener.render, Listener.callLines, Listener.membersLines_eq]
      rfl

/-- The sites whose elements have a known type are converted. Each of them emits the leaves of its
callback, with the sites nested in it as they have been converted before. -/
theorem convert_emits_leaves (settings : Settings) (file text : String)
    (clean : (CompilationUnit.ofString text).hasSyntaxErrors = false) (valid : settings.Valid) :
    let u := CompilationUnit.ofString text
    ∃ ts done, Run settings u.source.toBytes (begun u file) ts done ∧
      ts.map Turn.site = innermostFirst (callSites u file).1 ∧
      (∀ conversion, convert settings file text = .ok conversion →
        conversion.outcomes = byLine ((callSites u file).2 ++ ts.map Turn.outcome)) ∧
      (∀ t ∈ ts, t.outcome.converted = true ↔
        ∃ elementType, t.site.elementType = .ok elementType) ∧
      ∀ earlier t later replacement, ts = earlier ++ t :: later →
        t.outcome.result = .ok replacement →
          ∃ call parameters block elementType pieces,
            IsSite u file call parameters block t.site ∧
            t.site.elementType = .ok elementType ∧
            Emits settings u.source (topmost (replacements earlier)) t.site
              (scopeOf u parameters block) block elementType pieces replacement.text := by
  intro u
  obtain ⟨ts, done, course⟩ := exists_course clean settings file
  refine ⟨ts, done, course.run, course.sites, course.outcomes,
    fun t ht => (course.settled t ht).converted_iff, ?_⟩
  intro earlier t later replacement split converted
  have ht : t ∈ ts := split ▸ List.mem_append_right _ List.mem_cons_self
  obtain ⟨call, parameters, block, isSite, settled⟩ := course.settled t ht
  rw [course.before earlier t later split] at settled
  have base : Text.allBlank t.site.indentText.toList = true := by
    rw [isSite.same, siteOf, String.toList_ofList]
    exact Source.allBlank_lineIndent _ _
  have put : ∀ e ∈ topmost (replacements earlier), EndsSolid e.replacement.toList := by
    intro e he
    obtain ⟨s, hs, edit⟩ := List.mem_filterMap.1 (mem_topmost.1 he).1
    obtain ⟨found, result, rfl⟩ := Turn.edit?_eq_some_iff.1 edit
    obtain ⟨_, _, _, _, before⟩ := course.settled s (split ▸ List.mem_append_left _ hs)
    exact before.endsSolid result
  obtain ⟨elementType, pieces, known, emits⟩ :=
    settled.emits converted (isSite.belongs clean) valid base put
  exact ⟨call, parameters, block, elementType, pieces, isSite, known, emits⟩

/-- Two calls, one in a branch of a guard in the callback of the other. -/
def guardedText : String :=
  "package reactor.core.publisher;\nclass C \x7b\n  void f(Mono<String> m, Mono<String> n) \x7b\n" ++
  "    m.doAfterSuccessOrError((v, e) -> \x7b\n      if (v != null) \x7b\n        // kept\n" ++
  "        n.doAfterSuccessOrError((x, y) -> \x7b g(y); h(x); \x7d);\n      \x7d else g(e);\n" ++
  "      h(v);\n    \x7d);\n  \x7d\n\x7d\n"

set_option maxRecDepth 100000 in
theorem convert_emits_guarded_leaves :
    let u := CompilationUnit.ofString guardedText
    u.hasSyntaxErrors = false ∧ Settings.Valid default ∧ (callSites u "C.java").1.length = 2 ∧
      ∀ site ∈ (callSites u "C.java").1,
        ∃ edits call parameters block elementType pieces replacement,
          IsSite u "C.java" call parameters block site ∧
          Emits default u.source edits site (scopeOf u parameters block) block elementType pieces
            replacement := by
  intro u
  have quick : u = .ofCharsOf guardedText := CompilationUnit.ofString_eq_ofCharsOf _
  have valid : Settings.Valid default := Settings.valid_default
  -- the text is parsed once for all that is read off it
  obtain ⟨clean, known⟩ : u.hasSyntaxErrors = false ∧
      (callSites u "C.java").1.map (·.elementType.isOk) = [true, true] := by
    rw [quick]
    decide +kernel
  have two : (callSites u "C.java").1.length = 2 := by
    rw [← List.length_map (·.elementType.isOk), known]
    rfl
  refine ⟨clean, valid, two, fun site hsite => ?_⟩
  obtain ⟨ts, done, _, same, _, converted, emits⟩ :=
    convert_emits_leaves default "C.java" guardedText clean valid
  obtain ⟨t, ht, rfl⟩ : ∃ t ∈ ts, t.site = site :=
    List.mem_map.1 (same ▸ List.mem_mergeSort.2 hsite)
  have ok : t.site.elementType.isOk ∈ [true, true] := known ▸ List.mem_map_of_mem hsite
  have result : t.outcome.converted = true := by
    refine (converted t ht).2 ?_
    cases found : t.site.elementType with
    | error reason =>
      rw [found] at ok
      simp [Except.isOk, Except.toBool] at ok
    | ok elementType => exact ⟨elementType, rfl⟩
  obtain ⟨earlier, later, split⟩ := List.append_of_mem ht
  cases found : t.outcome.result with
  | error d =>
    rw [Outcome.converted, found] at result
    cases result
  | ok replacement =>
    obtain ⟨call, parameters, block, elementType, pieces, isSite, _, emitted⟩ :=
      emits earlier t later replacement split found
    exact ⟨_, call, parameters, block, elementType, pieces, _, isSite, emitted⟩

end MonoTap

import MonoTap.Proofs.Frame

/-!
# Calls inside other calls

A converted call that is in no other converted call is replaced in the text. A converted call inside
other ones is carried by one piece of the nearest of them if it stands in the block of the callback
there. If it stands in the parameters of the callback instead, no piece carries it: a listener
declares parameters of its own, so such a call is dropped, although it counts as converted.
-/

set_option autoImplicit false

namespace MonoTap

open Callback (Bucket leafSlots)
open Java (CompilationUnit Cursor Node)
open Text (Edit Source Spliced encode inOrder)

/-! ### The nearest of the edits around an edit -/

variable {ts : List Turn} {e f : Edit}

theorem replacements_append (ts us : List Turn) :
    replacements (ts ++ us) = replacements ts ++ replacements us :=
  List.filterMap_append

theorem replacements_cons {t : Turn} (h : t.edit? = some e) (ts : List Turn) :
    replacements (t :: ts) = e :: replacements ts :=
  List.filterMap_cons_some h

theorem nodup_of_apart {es : List Edit} (wide : ∀ e ∈ es, e.start < e.stop)
    (apart : es.Pairwise Edit.Apart) : es.Nodup := by
  refine apart.imp_of_mem fun {a b} ha _ apart same => ?_
  subst same
  have := wide a ha
  unfold Edit.Apart at apart
  omega

/-- An edit that lies in others is one of those to make when the nearest of them is added. -/
theorem exists_nearest {text : List Char} (followed : Followed text (replacements ts) [])
    (he : e ∈ replacements ts) (inner : e ∉ topmost (replacements ts)) :
    ∃ earlier t later f, ts = earlier ++ t :: later ∧ t.edit? = some f ∧ e.nested f = true ∧
      (∀ g ∈ replacements ts, e.nested g = true → g = f ∨ f.nested g = true) ∧
      e ∈ topmost (replacements earlier) := by
  have wide : ∀ g ∈ replacements ts, g.start < g.stop := fun g hg =>
    followed.wide (List.mem_append_left _ hg)
  have own := wide e he
  have precedes := (List.pairwise_append.1 followed.precedes).1
  obtain ⟨t, found⟩ : ∃ t, ts.find? (fun t => t.edit?.any (e.nested ·)) = some t := by
    rw [← Option.isSome_iff_exists, List.find?_isSome]
    obtain ⟨g, hg, nested⟩ : ∃ g ∈ replacements ts, e.nested g = true := by
      rw [mem_topmost] at inner
      simpa [he] using inner
    obtain ⟨t, ht, edit⟩ := List.mem_filterMap.1 hg
    exact ⟨t, ht, by rw [edit, Option.any_some, nested]⟩
  obtain ⟨holds, earlier, later, rfl, none⟩ := List.find?_eq_some_iff_append.1 found
  obtain ⟨f, edit, nested⟩ := (Option.any_eq_true _ _).1 holds
  have before : ∀ g ∈ replacements earlier, e.nested g = false := by
    intro g hg
    obtain ⟨s, hs, edit⟩ := List.mem_filterMap.1 hg
    have outside := none s hs
    rwa [edit, Option.any_some, Bool.not_eq_true'] at outside
  have around := Edit.nested_iff.1 nested
  rw [replacements_append, replacements_cons edit] at he wide precedes ⊢
  obtain ⟨_, fromNearest, _⟩ := List.pairwise_append.1 precedes
  obtain ⟨fromNearest, _⟩ := List.pairwise_cons.1 fromNearest
  refine ⟨earlier, t, later, f, rfl, edit, nested, ?_, mem_topmost.2 ⟨?_, before⟩⟩
  · intro g hg inside
    have outer := Edit.nested_iff.1 inside
    rcases List.mem_append.1 hg with hg | hg
    · rw [before g hg] at inside
      cases inside
    · rcases List.mem_cons.1 hg with rfl | hg
      · exact Or.inl rfl
      · rcases fromNearest g hg with nested | apart
        · exact Or.inr nested
        · unfold Edit.Apart at apart
          omega
  · -- the edit comes before the nearest one around it
    rcases List.mem_append.1 he with he | he
    · exact he
    · rcases List.mem_cons.1 he with rfl | he
      · omega
      · rcases fromNearest e he with nested | apart
        · have := Edit.nested_iff.1 nested
          omega
        · unfold Edit.Apart at apart
          omega

/-! ### The pieces of a turn -/

/-- A turn that made a listener out of the pieces of the callback with the given block. -/
structure Turn.Makes (settings : Settings) (u : CompilationUnit) (file : String) (t : Turn)
    (parameters : List (String × Option String)) (block : Node) (pieces : List Piece) : Prop where
  site : ∃ call, IsSite u file call parameters block t.site
  dealt : Dealt u.source t.site.parameters (scopeOf u parameters block) block t.before.edits pieces
  result : ∃ elementType replacement, t.site.elementType = .ok elementType ∧
    t.outcome.result = .ok replacement ∧
    replacement.text = Listener.render (t.site.layout settings) (t.site.names settings elementType)
      (emittedIn pieces)

section

variable {settings : Settings} {u : CompilationUnit} {file : String} {t : Turn}

theorem Turn.IsSettled.exists_pieces (h : t.IsSettled settings u file) (edit : t.edit? = some e) :
    ∃ parameters block pieces, t.Makes settings u file parameters block pieces := by
  obtain ⟨call, parameters, block, isSite, settled⟩ := h
  unfold Settled at settled
  split at settled
  · obtain ⟨r, found, _⟩ := Turn.edit?_eq_some_iff.1 edit
    rw [Outcome.converted, found] at settled
    cases settled
  · rename_i elementType known
    obtain ⟨replacement, pieces, result, dealt, text⟩ := settled
    exact ⟨parameters, block, pieces, ⟨call, isSite⟩, dealt, elementType, replacement, known,
      result, text⟩

/-- One piece of a converted site carries a call in the block of the callback, and none carries a call
elsewhere. -/
theorem Turn.Makes.carriers {text : String}
    (clean : (CompilationUnit.ofString text).hasSyntaxErrors = false)
    {parameters : List (String × Option String)} {block : Node} {pieces : List Piece}
    (h : t.Makes settings (CompilationUnit.ofString text) file parameters block pieces)
    {call : Cursor} (eligible : call ∈ eligibleCalls (CompilationUnit.ofString text)) :
    (call.node ∈ Node.preorderAll block.children →
      (pieces.filter (·.slot.carries (callStart call.node) call.node.stop)).length = 1) ∧
    (call.node ∉ Node.preorderAll block.children →
      pieces.filter (·.slot.carries (callStart call.node) call.node.stop) = []) := by
  obtain ⟨outer, isSite⟩ := h.site
  have slots := List.filter_map (f := Piece.slot)
    (p := (·.carries (callStart call.node) call.node.stop)) (l := pieces)
  rw [h.dealt.slots] at slots
  have carriers := @IsSite.carriers _ _ clean _ _ _ _ _ t.site.parameters
    (scopeOf (CompilationUnit.ofString text) parameters block)
    (CompilationUnit.ofString text).source isSite eligible
  rw [slots, List.length_map, List.map_eq_nil_iff] at carriers
  exact carriers

end

/-! ### Calls that stay -/

/-- What is replaced in the place of another call lies around it, inside its arguments, or apart from
it. -/
theorem related_calls {text : String}
    (clean : (CompilationUnit.ofString text).hasSyntaxErrors = false) {a b : Cursor}
    (ha : a ∈ eligibleCalls (CompilationUnit.ofString text))
    (hb : b ∈ eligibleCalls (CompilationUnit.ofString text)) :
    (callStart b.node ≤ callStart a.node ∧ a.node.stop ≤ b.node.stop) ∨
      (nameStop a.node ≤ callStart b.node ∧ b.node.stop ≤ a.node.stop) ∨
      b.node.stop ≤ callStart a.node ∨ a.node.stop ≤ callStart b.node := by
  obtain ⟨callA, inA⟩ := isCall_of_mem_eligibleCalls clean ha
  obtain ⟨callB, inB⟩ := isCall_of_mem_eligibleCalls clean hb
  have startA := callA.spans.2
  have startB := callB.spans.2
  rcases nodes_related clean inA inB with same | (inside | before) | (inside | after)
  · rw [same]
    exact Or.inl ⟨Nat.le_refl _, Nat.le_refl _⟩
  · rcases callA.nested callB inside with before | nested
    · exact Or.inr (Or.inr (Or.inl before))
    · exact Or.inr (Or.inl nested.2)
  · exact Or.inr (Or.inr (Or.inr (by omega)))
  · rcases callB.nested callA inside with before | nested
    · exact Or.inr (Or.inr (Or.inr before))
    · exact Or.inl ⟨by omega, nested.2.2⟩
  · exact Or.inr (Or.inr (Or.inl (by omega)))

/-! ### The edits of a course -/

section

variable {settings : Settings} {file text : String} {done : Progress}

theorem Course.precedes (h : Course settings file text ts done) :
    (replacements ts).Pairwise Edit.Precedes :=
  (List.pairwise_append.1 h.followed.precedes).1

/-- An edit to make at some time of a course is to be made once. -/
theorem Course.count_topmost (h : Course settings file text ts done) {es : List Edit}
    (sub : es.Sublist (replacements ts)) {e : Edit} (he : e ∈ topmost es) :
    (topmost es).count e = 1 := by
  have wide : ∀ f ∈ topmost es, f.start < f.stop := fun f hf =>
    h.followed.wide (List.mem_append_left _ (sub.subset (mem_topmost.1 hf).1))
  have nodup := nodup_of_apart wide (topmost_pairwise (h.precedes.sublist sub))
  rw [nodup.count, if_pos he]

theorem sublist_replacements {earlier later : List Turn} {t : Turn}
    (split : ts = earlier ++ t :: later) : (replacements earlier).Sublist (replacements ts) := by
  rw [split, replacements_append]
  exact List.sublist_append_left _ _

/-- An edit that lies in others is to be made when the nearest of them comes, and is carried by one
piece of it, or by none if its call is not in the block of the callback there. -/
theorem Course.carried (clean : (CompilationUnit.ofString text).hasSyntaxErrors = false)
    (h : Course settings file text ts done) {call : Cursor}
    (eligible : call ∈ eligibleCalls (CompilationUnit.ofString text)) {e : Edit}
    (he : e ∈ replacements ts) (inner : e ∉ topmost (replacements ts)) :
    ∃ earlier outer later f parameters block pieces,
      ts = earlier ++ outer :: later ∧ outer.edit? = some f ∧ e.nested f = true ∧
      (∀ g ∈ replacements ts, e.nested g = true → g = f ∨ f.nested g = true) ∧
      outer.before.edits.count e = 1 ∧
      outer.Makes settings (CompilationUnit.ofString text) file parameters block pieces ∧
      (call.node ∈ Node.preorderAll block.children → (pieces.filter
        (·.slot.carries (callStart call.node) call.node.stop)).length = 1) ∧
      (call.node ∉ Node.preorderAll block.children → pieces.filter
        (·.slot.carries (callStart call.node) call.node.stop) = []) := by
  obtain ⟨earlier, outer, later, f, split, outerEdit, nested, nearest, pending⟩ :=
    exists_nearest h.followed he inner
  have houter : outer ∈ ts := split ▸ List.mem_append_right _ List.mem_cons_self
  obtain ⟨parameters, block, pieces, makes⟩ := (h.settled outer houter).exists_pieces outerEdit
  refine ⟨earlier, outer, later, f, parameters, block, pieces, split, outerEdit, nested, nearest,
    ?_, makes, makes.carriers clean eligible⟩
  rw [h.before earlier outer later split]
  exact h.count_topmost (sublist_replacements split) pending

end

/-- At every turn the edits to make are those of the calls converted so far that are in no other one,
and they are apart. Whether a call is converted does not depend on the calls around it or inside it.
In the end each converted call is replaced once in the text, or is carried once by the nearest
converted call around it: by one piece if it stands in the block of the callback there, and by none
otherwise. A call that stays keeps its bytes outside the converted calls in its arguments, unless it
is in a converted call. -/
theorem convert_carries_nested_calls (settings : Settings) (file text : String)
    (clean : (CompilationUnit.ofString text).hasSyntaxErrors = false) :
    let u := CompilationUnit.ofString text
    ∃ ts done, Run settings u.source.toBytes (begun u file) ts done ∧
      ts.map Turn.site = innermostFirst (callSites u file).1 ∧
      (∀ earlier t later, ts = earlier ++ t :: later →
        t.before.edits = topmost (replacements earlier) ∧ t.before.edits.Pairwise Edit.Apart) ∧
      (done.edits = topmost (replacements ts) ∧ done.edits.Pairwise Edit.Apart) ∧
      ((∃ conversion, convert settings file text = .ok conversion) ↔
        ∀ i ∈ insertions u done, ∀ e ∈ done.edits, ¬ i.Cuts e) ∧
      (∀ conversion, convert settings file text = .ok conversion →
        Spliced 0 (inOrder (insertions u done ++ done.edits)) (encode text)
          (encode conversion.text)) ∧
      (∀ t ∈ ts, t.outcome.converted = true ↔
        ∃ elementType, t.site.elementType = .ok elementType) ∧
      (∀ inner ∈ ts, ∀ e, inner.edit? = some e → ∃ call ∈ eligibleCalls u,
        e.start = callStart call.node ∧ e.stop = call.node.stop ∧
          (done.edits.count e = 1 ∨ ∃ earlier outer later f parameters block pieces,
            ts = earlier ++ outer :: later ∧ outer.edit? = some f ∧ e.nested f = true ∧
            (∀ g ∈ replacements ts, e.nested g = true → g = f ∨ f.nested g = true) ∧
            outer.before.edits.count e = 1 ∧
            outer.Makes settings u file parameters block pieces ∧
            (call.node ∈ Node.preorderAll block.children → (pieces.filter
              (·.slot.carries (callStart call.node) call.node.stop)).length = 1) ∧
            (call.node ∉ Node.preorderAll block.children → pieces.filter
              (·.slot.carries (callStart call.node) call.node.stop) = []))) ∧
      ∀ call ∈ eligibleCalls u, (∀ e ∈ replacements ts,
        ¬ (e.start ≤ callStart call.node ∧ call.node.stop ≤ e.stop)) →
          ∀ e ∈ done.edits, (nameStop call.node ≤ e.start ∧ e.stop ≤ call.node.stop) ∨
            e.stop ≤ callStart call.node ∨ call.node.stop ≤ e.start := by
  intro u
  obtain ⟨ts, done, course⟩ := exists_course clean settings file
  refine ⟨ts, done, course.run, course.sites, ?_, ⟨course.after, ?_⟩, course.possible,
    course.spliced, fun t ht => (course.settled t ht).converted_iff, ?_, ?_⟩
  · intro earlier t later split
    have before := course.before earlier t later split
    have apart := topmost_pairwise (course.precedes.sublist (sublist_replacements split))
    exact ⟨before, before ▸ apart⟩
  · rw [course.after]
    exact topmost_pairwise course.precedes
  · intro inner hinner e edit
    have he : e ∈ replacements ts := List.mem_filterMap.2 ⟨inner, hinner, edit⟩
    obtain ⟨_, _, _, call, _, _, isSite, start, stop⟩ :=
      exists_of_mem_replacements course.settled he
    refine ⟨call, isSite.eligible, start, stop, ?_⟩
    by_cases top : e ∈ topmost (replacements ts)
    · left
      rw [course.after]
      exact course.count_topmost (List.Sublist.refl _) top
    · right
      exact course.carried clean isSite.eligible he top
  · intro call eligible outside e he
    have mem := (mem_topmost.1 (course.after ▸ he)).1
    obtain ⟨_, _, _, other, _, _, isSite, start, stop⟩ :=
      exists_of_mem_replacements course.settled mem
    have uncovered := outside e mem
    have related := related_calls clean eligible isSite.eligible
    omega

/-- A call in the callback of another call, next to a call on the result of that one. -/
def chainedText : String :=
  "package reactor.core.publisher;\nclass C \x7b\n  void f(Mono<String> m, Mono<String> n) \x7b\n" ++
  "    m.doAfterSuccessOrError((v, e) -> \x7b\n" ++
  "      n.doAfterSuccessOrError((x, y) -> \x7b g(y, v); \x7d);\n" ++
  "    \x7d).doAfterSuccessOrError((v, e) -> \x7b h(); \x7d);\n  \x7d\n\x7d\n"

set_option maxRecDepth 100000 in
theorem convert_carries_call_in_chain :
    let u := CompilationUnit.ofString chainedText
    u.hasSyntaxErrors = false ∧ (callSites u "C.java").1.length = 3 ∧
      ∃ ts done, Run default u.source.toBytes (begun u "C.java") ts done ∧
        ts.map Turn.site = innermostFirst (callSites u "C.java").1 ∧
        (∀ t ∈ ts, t.outcome.converted = true) ∧ done.edits = topmost (replacements ts) ∧
        done.edits.Pairwise Edit.Apart := by
  intro u
  have quick : u = .ofCharsOf chainedText := CompilationUnit.ofString_eq_ofCharsOf _
  obtain ⟨clean, known⟩ : u.hasSyntaxErrors = false ∧
      (callSites u "C.java").1.map (·.elementType.isOk) = [true, true, true] := by
    rw [quick]
    decide +kernel
  have three : (callSites u "C.java").1.length = 3 := by
    rw [← List.length_map (·.elementType.isOk), known]
    rfl
  obtain ⟨ts, done, run, same, _, ⟨edits, apart⟩, _, _, converted, _⟩ :=
    convert_carries_nested_calls default "C.java" chainedText clean
  refine ⟨clean, three, ts, done, run, same, fun t ht => (converted t ht).2 ?_, edits, apart⟩
  have site : t.site ∈ (callSites u "C.java").1 :=
    List.mem_mergeSort.1 (same ▸ List.mem_map_of_mem ht)
  have ok : t.site.elementType.isOk ∈ [true, true, true] := known ▸ List.mem_map_of_mem site
  cases found : t.site.elementType with
  | error reason =>
    rw [found] at ok
    simp [Except.isOk, Except.toBool] at ok
  | ok elementType => exact ⟨elementType, rfl⟩

end MonoTap

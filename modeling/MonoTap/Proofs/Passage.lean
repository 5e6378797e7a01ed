import MonoTap.Proofs.Consumption
import MonoTap.Proofs.Segments

/-!
# Parts of a callback on their way into a listener

What stands in a leaf of a callback passes into what the site is replaced by: it is in one piece, and
is moved with that piece. If it stands in the callback of a site that was converted before, it is first
moved into what that site is replaced by, and then along with it.
-/

set_option autoImplicit false

namespace MonoTap

open Java (CompilationUnit Node)
open Listener (Tight carried carriedThrough)
open Text (Edit Source Spliced encodeChars isIndent)

/-! ### Layouts -/

theorem toList_newlineOf_cases (bs : List UInt8) :
    (Text.newlineOf bs).toList = ['\n'] ∨ (Text.newlineOf bs).toList = ['\r', '\n'] :=
  (newlineOf_cases bs).imp (congrArg String.toList) (congrArg String.toList)

/-! ### One site -/

section

variable {settings : Settings} {u : CompilationUnit} {file : String} {t : Turn} {e : Edit}
  {parameters : List (String × Option String)} {block : Node} {pieces : List Piece} {q : Piece}

/-- What a site is replaced by holds the lines of each of its pieces. -/
theorem Turn.Makes.exists_lines (h : t.Makes settings u file parameters block pieces)
    (valid : settings.Valid) (edit : t.edit? = some e) (hq : q ∈ pieces) :
    ∃ before after, e.replacement.toList = before ++
      (Text.joinWith (t.site.layout settings).newline
        (q.emitted.lines (t.site.layout settings).body) ++ after) := by
  obtain ⟨elementType, replacement, _, result, rendered⟩ := h.result
  obtain ⟨_, found, rfl⟩ := Turn.edit?_eq_some_iff.1 edit
  rw [result] at found
  cases found
  have listed : q.bucket ∈ (t.site.layout settings).order :=
    valid.order.mem_iff.2 q.bucket.mem_all
  have emitted : q.emitted ∈ emittedIn pieces q.bucket :=
    List.mem_map_of_mem (List.mem_filter.2 ⟨hq, decide_eq_true rfl⟩)
  show ∃ before after, replacement.text.toList = _
  rw [rendered]
  exact Listener.exists_render_eq listed emitted

/-- A part of a piece is moved with it into what the site is replaced by. -/
theorem Turn.Makes.exists_carried (h : t.Makes settings u file parameters block pieces)
    (valid : settings.Valid) (edit : t.edit? = some e) (hq : q ∈ pieces) {part : List Char}
    (tight : Tight part) {front back : List Char}
    (text : q.text.toList = front ++ (part ++ back)) :
    ∃ before after, e.replacement.toList = before ++
      (carried (t.site.layout settings).body (t.site.layout settings).newline q.indent part ++
        after) := by
  obtain ⟨before, after, lines⟩ := h.exists_lines valid edit hq
  obtain ⟨first, last, moved⟩ := tight.exists_reindent_eq front back
  refine ⟨before ++ first, last ++ after, ?_⟩
  rw [lines, Listener.StatementText.lines, Piece.emitted, text, moved]
  simp only [List.append_assoc]

variable {text : String} (clean : (CompilationUnit.ofString text).hasSyntaxErrors = false)
include clean

/-- What lies in a leaf of the callback lies in one piece. -/
theorem Turn.Makes.exists_carrier
    (h : t.Makes settings (CompilationUnit.ofString text) file parameters block pieces) {leaf : Node}
    (hleaf : leaf ∈ Callback.leafNodes t.site.parameters
      (scopeOf (CompilationUnit.ofString text) parameters block) block)
    {start stop : Nat} (wide : start < stop) (first : leaf.start ≤ start) (last : stop ≤ leaf.stop) :
    ∃ q, pieces.filter (·.slot.carries start stop) = [q] := by
  obtain ⟨call, isSite⟩ := h.site
  have one : ((Callback.leafSlots (CompilationUnit.ofString text).source t.site.parameters
      (scopeOf (CompilationUnit.ofString text) parameters block) block).filter
        (·.carries start stop)).length = 1 :=
    Callback.length_filter_carries (isSite.belongs clean) wide hleaf first last
  have slots := List.filter_map (f := Piece.slot) (p := (·.carries start stop)) (l := pieces)
  rw [h.dealt.slots] at slots
  rw [slots, List.length_map] at one
  exact List.length_eq_one_iff.1 one

end

/-! ### Sites in a callback -/

section

variable (settings : Settings) (file text : String) (ts : List Turn)

/-- How what stands between two offsets passes into what a turn puts in the place of its site, by the
indentation before each line and the indentation taken away, move by move: it is in one piece of the
site and in no site converted before, or it is in the callback of such a site, which is in one piece. -/
inductive Passage (start stop : Nat) : Turn → List (List Char × Nat) → Prop
  | own {t : Turn} {e : Edit} {parameters : List (String × Option String)} {block : Node}
      {pieces : List Piece} {q : Piece} (edit : t.edit? = some e)
      (makes : t.Makes settings (CompilationUnit.ofString text) file parameters block pieces)
      (carrier : pieces.filter (·.slot.carries start stop) = [q])
      (apart : ∀ f ∈ t.before.edits, f.stop ≤ (start : Int) ∨ (stop : Int) ≤ f.start) :
      Passage start stop t [((t.site.layout settings).body, q.indent)]
  | nested {t s : Turn} {e f : Edit} {parameters : List (String × Option String)} {block : Node}
      {pieces : List Piece} {q : Piece} {moves : List (List Char × Nat)} (edit : t.edit? = some e)
      (makes : t.Makes settings (CompilationUnit.ofString text) file parameters block pieces)
      (before : s ∈ ts) (made : s.edit? = some f) (pending : f ∈ t.before.edits)
      (carrier : pieces.filter (·.slot.carries s.site.start s.site.stop) = [q])
      (inner : Passage start stop s moves) :
      Passage start stop t (moves ++ [((t.site.layout settings).body, q.indent)])

/-- Whether a node is in a leaf of the callback of each converted site around it that lies in a
site. -/
def Held (site : CallSite) (n : Node) : Prop :=
  ∀ t ∈ ts, t.outcome.converted = true → site.start ≤ t.site.start → t.site.stop ≤ site.stop →
    t.site.start ≤ n.start → n.stop ≤ t.site.stop → ∀ call parameters block,
      IsSite (CompilationUnit.ofString text) file call parameters block t.site →
        ∃ leaf ∈ Callback.leafNodes t.site.parameters
          (scopeOf (CompilationUnit.ofString text) parameters block) block, n ∈ leaf.preorder

end

/-- If only one call is eligible, there is only one site. -/
theorem IsSite.unique {u : CompilationUnit} (alone : (eligibleCalls u).length = 1) {file : String}
    {call other : Java.Cursor} {p q : List (String × Option String)} {b c : Node}
    {s t : CallSite} (first : IsSite u file call p b s) (second : IsSite u file other q c t) :
    p = q ∧ b = c ∧ s = t := by
  obtain ⟨only, one⟩ := List.length_eq_one_iff.1 alone
  have same : call = other := by
    have here := first.eligible
    have there := second.eligible
    rw [one] at here there
    rw [List.mem_singleton.1 here, List.mem_singleton.1 there]
  subst same
  have parts := first.parts.symm.trans second.parts
  cases parts
  exact ⟨rfl, rfl, first.same.trans second.same.symm⟩

/-- The turn that converts a site of which the type of the elements is known. -/
theorem exists_turn {u : CompilationUnit} {file : String} {ts : List Turn}
    (same : ts.map Turn.site = innermostFirst (callSites u file).1)
    (converted : ∀ t ∈ ts, t.outcome.converted = true ↔
      ∃ elementType, t.site.elementType = .ok elementType)
    {site : CallSite} (listed : site ∈ (callSites u file).1)
    (known : site.elementType.isOk = true) :
    ∃ t ∈ ts, t.site = site ∧ ∃ replacement, t.outcome.result = .ok replacement := by
  have sorted : site ∈ ts.map Turn.site := same ▸ List.mem_mergeSort.2 listed
  obtain ⟨t, ht, rfl⟩ := List.mem_map.1 sorted
  refine ⟨t, ht, rfl, ?_⟩
  have done : t.outcome.converted = true := by
    refine (converted t ht).2 ?_
    cases found : t.site.elementType with
    | error reason =>
      rw [found] at known
      cases known
    | ok elementType => exact ⟨elementType, rfl⟩
  cases result : t.outcome.result with
  | error d =>
    rw [Outcome.converted, result] at done
    cases done
  | ok replacement => exact ⟨replacement, rfl⟩

theorem Turn.converted_of_edit {t : Turn} {e : Edit} (edit : t.edit? = some e) :
    t.outcome.converted = true := by
  obtain ⟨r, result, _⟩ := Turn.edit?_eq_some_iff.1 edit
  rw [Outcome.converted, result]

theorem Turn.bounds_of_edit {t : Turn} {e : Edit} (edit : t.edit? = some e) :
    e.start = t.site.start ∧ e.stop = t.site.stop := by
  obtain ⟨r, _, rfl⟩ := Turn.edit?_eq_some_iff.1 edit
  exact ⟨rfl, rfl⟩

/-- A node that holds nothing stands in what the conversion of a call replaces, or is apart from
it. -/
theorem apart_or_within {text : String}
    (clean : (CompilationUnit.ofString text).hasSyntaxErrors = false) {call : Java.Cursor}
    (eligible : call ∈ eligibleCalls (CompilationUnit.ofString text)) {n : Node}
    (inText : n ∈ Node.preorderAll (Java.parse text.toList).children) (empty : n.children = []) :
    (callStart call.node ≤ n.start ∧ n.stop ≤ call.node.stop) ∨
      call.node.stop ≤ n.start ∨ n.stop ≤ callStart call.node := by
  obtain ⟨isCall, callInText⟩ := isCall_of_mem_eligibleCalls clean eligible
  obtain ⟨name, hname, _, start, _, _, _⟩ := isCall.exists_name
  have own := isCall.spans.2
  have within {m : Node} (hm : m ∈ Node.preorderAll call.node.children) :
      (callStart call.node ≤ m.start ∧ m.stop ≤ call.node.stop) ∨
        call.node.stop ≤ m.start ∨ m.stop ≤ callStart call.node := by
    obtain ⟨c, hc, hm⟩ := Node.mem_preorderAll.1 hm
    have bounds := (isCall.belongs.child hc).bounds hm
    have last := (isCall.belongs.placed.of_mem hc).2.2.2
    rcases isCall.belongs.placed.apart hc hname with rfl | before | after
    · omega
    · omega
    · have := (isCall.belongs.placed.of_mem hname).2.1.le
      omega
  rcases nodes_related clean inText callInText with rfl | (inside | before) | (inside | after)
  · rw [empty] at hname
    cases hname
  · rw [empty] at inside
    cases inside
  · omega
  · exact within inside
  · omega

section

variable {settings : Settings} {file text : String} {ts : List Turn} {done : Progress}
  (course : Course settings file text ts done)
include course

theorem Course.newline_eq {t : Turn} (ht : t ∈ ts) : (t.site.layout settings).newline =
    (Text.newlineOf (CompilationUnit.ofString text).source.toBytes).toList := by
  obtain ⟨call, parameters, block, isSite⟩ := course.exists_isSite ht
  rw [isSite.same]
  rfl

/-- What is true of spaces and tabs, and of the indentation in the settings, is true of the indentation
that each move is to. -/
theorem Course.of_mem_passes {P : Char → Prop} (spaces : ∀ c, isIndent c = true → P c)
    (step : ∀ c ∈ settings.indent.toList, P c) {start stop : Nat} {t : Turn}
    {moves : List (List Char × Nat)} (passes : Passage settings file text ts start stop t moves)
    (ht : t ∈ ts) : ∀ move ∈ moves, ∀ c ∈ move.1, P c := by
  have body {t : Turn} (ht : t ∈ ts) : ∀ c ∈ (t.site.layout settings).body, P c := by
    intro c hc
    obtain ⟨call, parameters, block, isSite⟩ := course.exists_isSite ht
    have same : (t.site.layout settings).body =
        t.site.indentText.toList ++ settings.indent.toList ++ settings.indent.toList := rfl
    rw [same, isSite.same, siteOf, String.toList_ofList] at hc
    rcases List.mem_append.1 hc with hc | hc
    · rcases List.mem_append.1 hc with hc | hc
      · exact spaces c (Source.isIndent_of_mem_lineIndent hc)
      · exact step c hc
    · exact step c hc
  induction passes with
  | own edit makes carrier apart =>
    intro move hmove
    cases List.mem_singleton.1 hmove
    exact body ht
  | nested edit makes before made pending carrier inner ih =>
    intro move hmove
    rcases List.mem_append.1 hmove with hmove | hmove
    · exact ih before move hmove
    · cases List.mem_singleton.1 hmove
      exact body ht

/-- The edits to make at a turn are of whole characters and apart. -/
theorem Course.pending {t : Turn} (ht : t ∈ ts) : Pending text.toList t.before.edits := by
  obtain ⟨earlier, later, split⟩ := List.append_of_mem ht
  rw [course.before earlier t later split]
  refine ⟨fun f hf => ?_, topmost_pairwise (course.precedes.sublist (sublist_replacements split))⟩
  have early := (sublist_replacements split).subset (mem_topmost.1 hf).1
  exact course.followed.spans f (List.mem_append_left _ early)

variable (clean : (CompilationUnit.ofString text).hasSyntaxErrors = false)
include clean

/-- A piece by the characters of its slot. -/
theorem Course.exists_slot {t : Turn} (ht : t ∈ ts) {parameters : List (String × Option String)}
    {block : Node} {pieces : List Piece}
    (makes : t.Makes settings (CompilationUnit.ofString text) file parameters block pieces)
    {q : Piece} (hq : q ∈ pieces) :
    ∃ front middle back, text.toList = front ++ (middle ++ back) ∧
      q.slot.start = (encodeChars front).length ∧
      q.slot.stop = q.slot.start + (encodeChars middle).length ∧
      Spliced q.slot.start
        (Text.inOrder (t.before.edits.filter (·.within q.slot.start q.slot.stop)))
        (encodeChars middle) (encodeChars q.text.toList) ∧
      ∀ e ∈ Text.inOrder (t.before.edits.filter (·.within q.slot.start q.slot.stop)),
        e.Fits q.slot.start middle := by
  obtain ⟨call, isSite⟩ := makes.site
  have mem : q.slot ∈ pieces.map Piece.slot := List.mem_map_of_mem hq
  rw [makes.dealt.slots] at mem
  have spans := ((Callback.leafSlots_spans (isSite.belongs clean)).1 q.slot mem).1
  obtain ⟨front, middle, back, whole, first, last, slice⟩ := slice_eq_encodeChars spans.toSpans
  have spliced := makes.dealt.spliced q hq
  rw [show (CompilationUnit.ofString text).source = Source.ofString text from rfl, slice,
    Text.encode_eq] at spliced
  exact ⟨front, middle, back, whole, first, last, spliced,
    (course.pending ht).fits whole first last⟩

/-- What passes into what a site is replaced by is in it, moved as it passes. -/
theorem Course.exists_of_passes (valid : settings.Valid) {start stop : Nat} {t : Turn}
    {moves : List (List Char × Nat)} (passes : Passage settings file text ts start stop t moves)
    (ht : t ∈ ts) {front part back : List Char} (split : text.toList = front ++ (part ++ back))
    (first : start = (encodeChars front).length)
    (last : start + (encodeChars part).length ≤ stop) (tight : Tight part) :
    ∃ e before after, t.edit? = some e ∧ e.replacement.toList = before ++
      (carriedThrough (Text.newlineOf (CompilationUnit.ofString text).source.toBytes).toList moves
        part ++ after) := by
  induction passes with
  | @own t e parameters block pieces q edit makes carrier apart =>
    obtain ⟨hq, carries⟩ := List.mem_filter.1 (carrier ▸ List.mem_singleton_self q)
    have range := Callback.Slot.carries_iff.1 carries
    obtain ⟨before, middle, after, whole, low, high, spliced, fits⟩ :=
      course.exists_slot clean ht makes hq
    obtain ⟨a, b, rfl, offset⟩ := Text.exists_within (whole ▸ split) (by omega) (by omega)
    obtain ⟨c, d, piece⟩ := spliced.exists_kept fits fun f hf => by
      have := apart f (List.mem_filter.1 (Text.mem_inOrder.1 hf)).1
      omega
    obtain ⟨before, after, same⟩ := makes.exists_carried valid edit hq tight piece
    rw [course.newline_eq ht] at same
    exact ⟨e, before, after, edit, same⟩
  | @nested t s e f parameters block pieces q moves edit makes before made pending carrier _ ih =>
    obtain ⟨_, a, b, same, inner⟩ := ih before
    rw [made] at same
    cases same
    obtain ⟨hq, carries⟩ := List.mem_filter.1 (carrier ▸ List.mem_singleton_self q)
    have range := Callback.Slot.carries_iff.1 carries
    have bounds := Turn.bounds_of_edit made
    obtain ⟨_, _, _, _, _, _, spliced, fits⟩ := course.exists_slot clean ht makes hq
    have inside : f.within q.slot.start q.slot.stop = true := by
      rw [Edit.within, Bool.and_eq_true, decide_eq_true_eq, decide_eq_true_eq]
      omega
    obtain ⟨c, d, piece⟩ := spliced.exists_put fits
      (Text.mem_inOrder.2 (List.mem_filter.2 ⟨pending, inside⟩))
    rw [inner] at piece
    have flat : q.text.toList = (c ++ a) ++ (carriedThrough (Text.newlineOf
        (CompilationUnit.ofString text).source.toBytes).toList moves part ++ (b ++ d)) := by
      rw [piece]
      simp only [List.append_assoc]
    obtain ⟨before, after, same⟩ := makes.exists_carried valid edit hq tight.carriedThrough flat
    rw [course.newline_eq ht, ← Listener.carriedThrough_concat] at same
    exact ⟨e, before, after, edit, same⟩

/-- A node that is held in the callbacks around it passes into what a site is replaced by. -/
theorem Course.exists_passes {n : Node}
    (inText : n ∈ Node.preorderAll (Java.parse text.toList).children) (empty : n.children = [])
    {t : Turn} (ht : t ∈ ts) (converted : t.outcome.converted = true)
    (held : Held file text ts t.site n) (first : t.site.start ≤ n.start)
    (last : n.stop ≤ t.site.stop) :
    ∃ moves, Passage settings file text ts n.start n.stop t moves := by
  obtain ⟨earlier, later, split⟩ := List.append_of_mem ht
  -- a site in the callback was converted before
  generalize size : earlier.length = k
  induction k using Nat.strongRecOn generalizing earlier later t with
  | ind k ih =>
    obtain ⟨e, edit⟩ : ∃ e, t.edit? = some e := by
      cases result : t.outcome.result with
      | error d =>
        rw [Outcome.converted, result] at converted
        cases converted
      | ok r => exact ⟨_, Turn.edit?_eq_some_iff.2 ⟨r, result, rfl⟩⟩
    obtain ⟨parameters, block, pieces, makes⟩ := (course.settled t ht).exists_pieces edit
    obtain ⟨call, isSite⟩ := makes.site
    obtain ⟨leaf, hleaf, inLeaf⟩ := held t ht converted (Nat.le_refl _) (Nat.le_refl _) first last
      call parameters block isSite
    have belongs := isSite.belongs clean
    have inBlock := Callback.mem_preorder_of_mem_leafNodes hleaf
    have range := (belongs.inside_children inBlock).bounds inLeaf
    have wide := ((belongs.inside_children inBlock).inside inLeaf).spans.wide
    have before := course.before earlier t later split
    have turn {f : Edit} (hf : f ∈ t.before.edits) : ∃ s ∈ earlier, s.edit? = some f ∧
        ∃ other parameters block,
          IsSite (CompilationUnit.ofString text) file other parameters block s.site := by
      rw [before] at hf
      obtain ⟨s, hs, made⟩ := List.mem_filterMap.1 (mem_topmost.1 hf).1
      exact ⟨s, hs, made, course.exists_isSite (split ▸ List.mem_append_left _ hs)⟩
    by_cases inside : ∃ f ∈ t.before.edits, f.start ≤ n.start ∧ (n.stop : Int) ≤ f.stop
    · obtain ⟨f, hf, low, high⟩ := inside
      obtain ⟨s, hs, made, other, _, _, otherSite⟩ := turn hf
      have bounds := Turn.bounds_of_edit made
      have own := Turn.bounds_of_edit edit
      have starts := otherSite.start
      have stops := otherSite.stop
      have ownStart := isSite.start
      have within := (Callback.placed_leafNodes (p := t.site.parameters)
        (r := scopeOf (CompilationUnit.ofString text) parameters block) belongs).of_mem hleaf
      have nested : t.site.start < s.site.start ∧ s.site.stop ≤ t.site.stop := by
        have precedes := course.precedes
        rw [split, replacements_append, replacements_cons edit] at precedes
        have across := (List.pairwise_append.1 precedes).2.2 f
          (List.mem_filterMap.2 ⟨s, hs, made⟩) e List.mem_cons_self
        rcases across with nested | apart
        · have := Edit.nested_iff.1 nested
          omega
        · unfold Edit.Apart at apart
          omega
      have inCallback := isSite.mem_of_meets clean otherSite.eligible (by omega) (by omega)
        (by omega)
      have one := (makes.carriers clean otherSite.eligible).1 inCallback
      obtain ⟨q, carrier⟩ := List.length_eq_one_iff.1 one
      rw [← starts, ← stops] at carrier
      obtain ⟨front, back, rfl⟩ := List.append_of_mem hs
      have mem : s ∈ ts := split ▸ List.mem_append_left _ hs
      obtain ⟨moves, passes⟩ := ih front.length
        (by rw [← size, List.length_append, List.length_cons]; omega) mem
        (Turn.converted_of_edit made)
        (fun u hu done low high => held u hu done (by omega) (by omega)) (by omega) (by omega)
        front (back ++ t :: later) (by rw [split, List.append_assoc, List.cons_append]) rfl
      exact ⟨_, .nested edit makes mem made hf carrier passes⟩
    · obtain ⟨q, carrier⟩ := makes.exists_carrier clean hleaf wide (by omega) (by omega)
      refine ⟨_, .own edit makes carrier fun f hf => ?_⟩
      obtain ⟨s, hs, made, other, _, _, otherSite⟩ := turn hf
      have bounds := Turn.bounds_of_edit made
      have related := apart_or_within clean otherSite.eligible inText empty
      rw [← otherSite.start, ← otherSite.stop] at related
      rcases related with both | after | before
      · exact (inside ⟨f, hf, by omega, by omega⟩).elim
      · omega
      · omega

end

end MonoTap

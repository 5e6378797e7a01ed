import MonoTap.Proofs.Bodies
import MonoTap.Proofs.Mentions
import MonoTap.Proofs.Nesting

/-!
# The mentions that a conversion uses up

Each call that is converted uses up a mention of its method. What a converted site is replaced by
holds the mentions that the conversion leaves in the site, if the names in the listener hold none,
and so does the whole text.
-/

set_option autoImplicit false

namespace MonoTap

open Callback (Bucket)
open Java (CompilationUnit Cursor Node)
open Text (Edit Source encode encodeChars inOrder occurrences spare times)

/-! ### Names that listeners repeat -/

/-- Whether no name that the conversion of a text writes into listeners mentions the method whose
calls are converted. -/
structure Foreign (settings : Settings) (file text : String) : Prop where
  termination : mentions settings.terminationName = 0
  parameters : ∀ site ∈ (callSites (CompilationUnit.ofString text) file).1,
    mentions site.parameters.value.name = 0 ∧ mentions site.parameters.error.name = 0
  elements : ∀ site ∈ (callSites (CompilationUnit.ofString text) file).1, ∀ elementType,
    site.elementType = .ok elementType → mentions elementType = 0

theorem Foreign.names {settings : Settings} {file text : String} (h : Foreign settings file text)
    {site : CallSite} (mem : site ∈ (callSites (CompilationUnit.ofString text) file).1)
    {elementType : String} (known : site.elementType = .ok elementType) :
    (site.names settings elementType).Foreign :=
  ⟨h.elements site mem elementType known, (h.parameters site mem).1, (h.parameters site mem).2,
    mentions_freshName h.termination _⟩

/-! ### Edits around other edits -/

/-- Each edit lies in one that lies in no other. -/
theorem exists_topmost {es : List Edit} (wide : ∀ e ∈ es, e.start < e.stop)
    (precedes : es.Pairwise Edit.Precedes) {f : Edit} (hf : f ∈ es) :
    ∃ e ∈ topmost es, e.start ≤ f.start ∧ f.stop ≤ e.stop := by
  induction es using List.reverseRecOn with
  | nil => cases hf
  | append_singleton es e ih =>
    obtain ⟨before, _, across⟩ := List.pairwise_append.1 precedes
    have fewer : ∀ g ∈ es, g.start < g.stop := fun g hg => wide g (List.mem_append_left _ hg)
    have own : e.start < e.stop := wide e (List.mem_append_right _ List.mem_cons_self)
    have last : e ∈ topmost (es ++ [e]) := by
      rw [topmost_concat fewer own fun g hg => across g hg e List.mem_cons_self]
      exact List.mem_append_right _ List.mem_cons_self
    rcases List.mem_append.1 hf with hf | hf
    · obtain ⟨g, hg, first, second⟩ := ih fewer before hf
      cases inside : g.within e.start e.stop with
      | true =>
        rw [Edit.within, Bool.and_eq_true, decide_eq_true_eq, decide_eq_true_eq] at inside
        exact ⟨e, last, by omega, by omega⟩
      | false =>
        refine ⟨g, ?_, first, second⟩
        rw [topmost_concat fewer own fun g hg => across g hg e List.mem_cons_self]
        exact List.mem_append_left _ (List.mem_filter.2 ⟨hg, by rw [inside]; rfl⟩)
    · rw [List.mem_singleton.1 hf]
      exact ⟨e, last, Int.le_refl _, Int.le_refl _⟩

/-! ### Calls that reach into a callback -/

/-- Of slots in order, only one holds a given offset. -/
theorem Callback.eq_of_meets {ss : List Slot} (ordered : ss.Pairwise fun a b => a.stop ≤ b.start)
    {s t : Slot} (hs : s ∈ ss) (ht : t ∈ ss) {p : Nat} (first : s.start ≤ p) (last : p < s.stop)
    (first' : t.start ≤ p) (last' : p < t.stop) : s = t := by
  induction ss with
  | nil => cases hs
  | cons u ss ih =>
    obtain ⟨later, ordered⟩ := List.pairwise_cons.1 ordered
    rcases List.mem_cons.1 hs with rfl | laterS
    · rcases List.mem_cons.1 ht with rfl | laterT
      · rfl
      · have := later t laterT
        omega
    · rcases List.mem_cons.1 ht with rfl | laterT
      · have := later s laterS
        omega
      · exact ih ordered laterS laterT

/-- A node inside another one that meets a child of it is that child or lies in it. -/
theorem Java.Node.Belongs.mem_preorder_of_meets {text : List Char} {n m c : Node}
    (h : n.Belongs text) (hm : m ∈ Node.preorderAll n.children) (hc : c ∈ n.children)
    (first : m.start < c.stop) (last : c.start < m.stop) : m ∈ c.preorder := by
  obtain ⟨d, hd, inside⟩ := Node.mem_preorderAll.1 hm
  have bounds := (h.child hd).bounds inside
  rcases h.placed.apart hd hc with rfl | before | after
  · exact inside
  · omega
  · omega

theorem isLambda_of_callbackParts {source : Source} {callback block : Node}
    {parameters : List (String × Option String)}
    (h : callbackParts source callback = .ok (parameters, block)) :
    callback.is .lambdaExpression = true := by
  rw [callbackParts] at h
  split at h
  · assumption
  · cases h

section

variable {text file : String} (clean : (CompilationUnit.ofString text).hasSyntaxErrors = false)
include clean

/-- Each eligible call uses up a mention of the method. -/
theorem exists_mention {call : Cursor}
    (eligible : call ∈ eligibleCalls (CompilationUnit.ofString text)) :
    callStart call.node ∈ occurrences methodWord 0 text.toList ∧
      callStart call.node + (encodeChars methodWord).length ≤ call.node.stop := by
  have isCall := (isCall_of_mem_eligibleCalls clean eligible).1
  have named := (List.mem_filter.1 eligible).2
  rw [isEligible, Bool.and_eq_true, Bool.and_eq_true, beq_iff_eq] at named
  obtain ⟨name, found⟩ := Option.isSome_iff_exists.1 isCall.named
  have spelled : name.text (CompilationUnit.ofString text).source = methodName := by
    have given := named.1.2
    rwa [partText, found] at given
  have belongs := isCall.belongs.child (Node.mem_children_of_child? found)
  have within := (isCall.belongs.placed.of_mem (Node.mem_children_of_child? found)).2.2.2
  obtain ⟨front, middle, back, split, start, stop, slice⟩ :=
    slice_eq_encodeChars belongs.spans.toSpans
  have word : middle = methodWord := by
    rw [Node.text, Source.textOf, show (CompilationUnit.ofString text).source =
      Source.ofString text from rfl, slice, Text.decodeLossy_encodeChars] at spelled
    rw [methodWord, ← spelled, String.toList_ofList]
  have same : callStart call.node = name.start := by
    rw [callStart, found]
    rfl
  subst word
  refine ⟨(Text.mem_occurrences methodWord_ne_nil).2 ⟨front, back, split, ?_⟩, ?_⟩
  · rw [same, start, Nat.zero_add]
  · rw [same]
    omega

/-- An eligible call inside another one whose conversion meets the callback of that one lies in the
callback. -/
theorem IsSite.mem_of_meets {call other : Cursor} {parameters : List (String × Option String)}
    {block : Node} {site : CallSite}
    (h : IsSite (CompilationUnit.ofString text) file call parameters block site)
    (eligible : other ∈ eligibleCalls (CompilationUnit.ofString text))
    (later : callStart call.node < callStart other.node)
    (first : callStart other.node < block.stop) (last : block.start < other.node.stop) :
    other.node ∈ Node.preorderAll block.children := by
  obtain ⟨outer, inText⟩ := isCall_of_mem_eligibleCalls clean h.eligible
  obtain ⟨inner, otherInText⟩ := isCall_of_mem_eligibleCalls clean eligible
  have invocation := Callback.label_of_isCall inner
  have own := inner.spans.2
  have outerOwn := outer.spans.2
  obtain ⟨arguments, harguments, role, hcallback⟩ := mem_of_callbackOf h.eligible
  have hbody := Node.mem_children_of_child? (callbackParts_eq_ok h.parts).1
  have list := outer.belongs.is_argumentList outer.invocation harguments role
  have argumentsBelongs := outer.belongs.child harguments
  have callbackBelongs := argumentsBelongs.child hcallback
  have inArguments := (outer.belongs.placed.of_mem harguments)
  have inCallback := (argumentsBelongs.placed.of_mem hcallback)
  have inBody := (callbackBelongs.placed.of_mem hbody)
  have bodySpans := (callbackBelongs.child hbody).spans.wide
  -- a node of another kind that holds the call holds it strictly
  have strictly {n : Node} {k : Java.Kind} (is : n.is k = true) (different : k ≠ .methodInvocation)
      (mem : other.node ∈ n.preorder) : other.node ∈ Node.preorderAll n.children := by
    rw [Node.preorder_eq] at mem
    rcases List.mem_cons.1 mem with same | inside
    · rw [← same, Node.is, invocation, beq_iff_eq, Java.Label.kind.injEq] at is
      exact (different is.symm).elim
    · exact inside
  have inCall : other.node ∈ Node.preorderAll call.node.children := by
    rcases nodes_related clean inText otherInText with same | (inside | before) | (inside | after)
    · rw [same] at later
      omega
    · exact inside
    · omega
    · rcases inner.nested outer inside with before | nested
      · omega
      · omega
    · omega
  have meets {n c : Node} (belongs : n.Belongs text.toList)
      (mem : other.node ∈ Node.preorderAll n.children) (hc : c ∈ n.children)
      (low : c.start ≤ block.start) (high : block.stop ≤ c.stop) : other.node ∈ c.preorder :=
    belongs.mem_preorder_of_meets mem hc (by omega) (by omega)
  have lambda := isLambda_of_callbackParts h.parts
  have block' := (callbackParts_eq_ok h.parts).2
  refine strictly block' (by decide) (meets callbackBelongs ?_ hbody (by omega) (by omega))
  refine strictly lambda (by decide) (meets argumentsBelongs ?_ hcallback (by omega) (by omega))
  exact strictly list (by decide) (meets outer.belongs inCall harguments (by omega) (by omega))

end

/-! ### The mentions that a conversion uses up -/

theorem sum_emittedIn {order : List Bucket} (perm : order.Perm Bucket.all) (pieces : List Piece) :
    (order.map fun b => ((emittedIn pieces b).map fun s => mentions s.text).sum).sum =
      (pieces.map fun q => mentions q.text).sum := by
  have all := (perm.flatMap_right fun b => pieces.filter (·.bucket = b)).trans
    (Callback.flatMap_filter_perm Piece.bucket pieces)
  rw [← (all.map fun q => mentions q.text).sum_nat, List.map_flatMap, List.flatMap,
    List.sum_flatten, List.map_map]
  refine congrArg List.sum (List.map_congr_left fun b _ => ?_)
  rw [emittedIn, List.map_map]
  rfl

/-- The offsets of the mentions in the calls that were converted. -/
def usedOffsets (ts : List Turn) : List Nat :=
  (replacements ts).map (·.start.toNat)

section

variable {settings : Settings} {file text : String} {ts : List Turn} {done : Progress}
  (course : Course settings file text ts done)
include course

theorem Course.wide {e : Edit} (he : e ∈ replacements ts) : e.start < e.stop :=
  course.followed.wide (List.mem_append_left _ he)

/-- The call that an edit replaces. -/
theorem Course.exists_call {e : Edit} (he : e ∈ replacements ts) :
    ∃ call ∈ eligibleCalls (CompilationUnit.ofString text),
      e.start = callStart call.node ∧ e.stop = call.node.stop := by
  obtain ⟨_, _, _, call, _, _, isSite, start, stop⟩ :=
    exists_of_mem_replacements course.settled he
  exact ⟨call, isSite.eligible, start, stop⟩

theorem Course.nodup_usedOffsets : (usedOffsets ts).Nodup := by
  rw [usedOffsets, List.nodup_iff_pairwise_ne, List.pairwise_map]
  refine course.precedes.imp_of_mem fun {a b} ha hb precedes => ?_
  have wideA := course.wide ha
  have wideB := course.wide hb
  obtain ⟨_, _, startA, _⟩ := course.exists_call ha
  obtain ⟨_, _, startB, _⟩ := course.exists_call hb
  rcases precedes with nested | apart
  · have := Edit.nested_iff.1 nested
    omega
  · unfold Edit.Apart at apart
    omega

variable (clean : (CompilationUnit.ofString text).hasSyntaxErrors = false)
include clean

/-- A used offset is that of a mention, at the start of an edit. -/
theorem Course.of_mem_usedOffsets {p : Nat} (h : p ∈ usedOffsets ts) :
    p ∈ occurrences methodWord 0 text.toList ∧ ∃ e ∈ replacements ts, e.start = p ∧
      (p : Int) + (encodeChars methodWord).length ≤ e.stop := by
  obtain ⟨e, he, rfl⟩ := List.mem_map.1 h
  obtain ⟨call, eligible, start, stop⟩ := course.exists_call he
  obtain ⟨found, size⟩ := exists_mention clean eligible
  have same : e.start.toNat = callStart call.node := by omega
  rw [same]
  exact ⟨found, e, he, start, by omega⟩

/-- In a piece of a converted site each used mention lies in an edit that was made in the piece. -/
theorem Course.exists_carried {earlier later : List Turn} {t : Turn}
    (split : ts = earlier ++ t :: later) {e : Edit} (edit : t.edit? = some e)
    {parameters : List (String × Option String)} {block : Node} {pieces : List Piece}
    (makes : t.Makes settings (CompilationUnit.ofString text) file parameters block pieces)
    {q : Piece} (hq : q ∈ pieces) {p : Nat} (hp : p ∈ usedOffsets ts) (first : q.slot.start ≤ p)
    (last : p + (encodeChars methodWord).length ≤ q.slot.stop) :
    ∃ f ∈ t.before.edits.filter (·.within q.slot.start q.slot.stop),
      f.start ≤ p ∧ (p : Int) + (encodeChars methodWord).length ≤ f.stop := by
  have width := Text.length_encodeChars_pos methodWord_ne_nil
  obtain ⟨outer, isSite⟩ := makes.site
  obtain ⟨r, _, rfl⟩ := Turn.edit?_eq_some_iff.1 edit
  have bounds := isSite.bounds clean
  have slot {s : Callback.Slot} (hs : s ∈ pieces.map Piece.slot) :
      block.start ≤ s.start ∧ s.stop ≤ block.stop := by
    rw [makes.dealt.slots] at hs
    exact ((Callback.leafSlots_spans (isSite.belongs clean)).1 s hs).2
  have ordered : (pieces.map Piece.slot).Pairwise fun a b => a.stop ≤ b.start := by
    rw [makes.dealt.slots]
    exact (Callback.leafSlots_spans (isSite.belongs clean)).2
  have own := slot (List.mem_map_of_mem hq)
  obtain ⟨_, f, hf, atStart, size⟩ := course.of_mem_usedOffsets clean hp
  have precedes := course.precedes
  have wide {g : Edit} (hg : g ∈ replacements earlier) : g.start < g.stop :=
    course.wide ((sublist_replacements split).subset hg)
  have start : (t.site.edit r.text).start = t.site.start := rfl
  have stop : (t.site.edit r.text).stop = t.site.stop := rfl
  rw [split, replacements_append, replacements_cons edit] at hf precedes
  obtain ⟨before, after, across⟩ := List.pairwise_append.1 precedes
  have early : f ∈ replacements earlier := by
    rcases List.mem_append.1 hf with hf | hf
    · exact hf
    · rcases List.mem_cons.1 hf with rfl | hf
      · omega
      · rcases (List.pairwise_cons.1 after).1 f hf with nested | apart
        · have := Edit.nested_iff.1 nested
          omega
        · unfold Edit.Apart at apart
          omega
  -- the outermost edit around the mention lies in the callback too
  obtain ⟨g, top, low, high⟩ := exists_topmost (fun g hg => wide hg) before early
  have hg := (mem_topmost.1 top).1
  obtain ⟨other, eligible, otherStart, otherStop⟩ :=
    course.exists_call ((sublist_replacements split).subset hg)
  have nested : (t.site.start : Int) < g.start := by
    rcases across g hg _ List.mem_cons_self with nested | apart
    · exact (Edit.nested_iff.1 nested).1
    · unfold Edit.Apart at apart
      omega
  have siteStart := isSite.start
  have inside := isSite.mem_of_meets clean eligible (by omega) (by omega) (by omega)
  have one := (makes.carriers clean eligible).1 inside
  obtain ⟨carrier, single⟩ := List.length_eq_one_iff.1 one
  obtain ⟨hcarrier, carries⟩ := List.mem_filter.1 (single ▸ List.mem_singleton_self carrier)
  have carries := Callback.Slot.carries_iff.1 carries
  have same : carrier.slot = q.slot :=
    Callback.eq_of_meets ordered (List.mem_map_of_mem hcarrier) (List.mem_map_of_mem hq)
      (show carrier.slot.start ≤ p by omega) (by omega) first (by omega)
  rw [same] at carries
  refine ⟨g, List.mem_filter.2 ⟨?_, ?_⟩, by omega, by omega⟩
  · rw [course.before earlier t later split]
    exact top
  · rw [Edit.within, Bool.and_eq_true, decide_eq_true_eq, decide_eq_true_eq]
    omega

/-- A piece of a converted site holds the mentions that the conversion leaves in its slot. -/
theorem Course.mentions_piece_le {earlier later : List Turn} {t : Turn}
    (split : ts = earlier ++ t :: later) {e : Edit} (edit : t.edit? = some e)
    {parameters : List (String × Option String)} {block : Node} {pieces : List Piece}
    (makes : t.Makes settings (CompilationUnit.ofString text) file parameters block pieces)
    (before : ∀ f ∈ replacements earlier, f.Frugal methodWord text.toList (usedOffsets ts))
    {q : Piece} (hq : q ∈ pieces) :
    mentions q.text ≤
      spare methodWord text.toList (usedOffsets ts) q.slot.start q.slot.stop := by
  obtain ⟨outer, isSite⟩ := makes.site
  have mem : q.slot ∈ pieces.map Piece.slot := List.mem_map_of_mem hq
  rw [makes.dealt.slots] at mem
  have spans := ((Callback.leafSlots_spans (isSite.belongs clean)).1 q.slot mem).1
  obtain ⟨front, middle, back, whole, first, last, slice⟩ := slice_eq_encodeChars spans.toSpans
  have pending : Pending text.toList t.before.edits := by
    rw [course.before earlier t later split]
    refine ⟨fun f hf => ?_, topmost_pairwise (course.precedes.sublist (sublist_replacements split))⟩
    have early := (sublist_replacements split).subset (mem_topmost.1 hf).1
    exact course.followed.spans f (List.mem_append_left _ early)
  have spliced := makes.dealt.spliced q hq
  rw [show (CompilationUnit.ofString text).source = Source.ofString text from rfl, slice,
    Text.encode_eq] at spliced
  refine spliced.times_le methodWord_ne_nil (pending.fits whole first last) whole first last
    (fun f hf => ?_) fun p hp low high => ?_
  · have made := (List.mem_filter.1 (Text.mem_inOrder.1 hf)).1
    rw [course.before earlier t later split] at made
    exact before f (mem_topmost.1 made).1
  · obtain ⟨f, hf, carried⟩ := course.exists_carried clean split edit makes hq hp low high
    exact ⟨f, Text.mem_inOrder.2 hf, carried⟩

section

variable (valid : settings.Valid) (foreign : Foreign settings file text)
include valid foreign

/-- What a converted site is replaced by holds the mentions that the conversion leaves in the site, if
the same is true of the sites in it. -/
theorem Course.frugal_of_earlier {earlier later : List Turn} {t : Turn}
    (split : ts = earlier ++ t :: later) {e : Edit} (edit : t.edit? = some e)
    (before : ∀ f ∈ replacements earlier, f.Frugal methodWord text.toList (usedOffsets ts)) :
    e.Frugal methodWord text.toList (usedOffsets ts) := by
  have ht : t ∈ ts := split ▸ List.mem_append_right _ List.mem_cons_self
  obtain ⟨parameters, block, pieces, makes⟩ := (course.settled t ht).exists_pieces edit
  obtain ⟨elementType, replacement, known, result, rendered⟩ := makes.result
  obtain ⟨_, found, rfl⟩ := Turn.edit?_eq_some_iff.1 edit
  rw [result] at found
  cases found
  obtain ⟨outer, isSite⟩ := makes.site
  have bounds := isSite.bounds clean
  have listed : t.site ∈ (callSites (CompilationUnit.ofString text) file).1 :=
    List.mem_mergeSort.1 (course.sites ▸ List.mem_map_of_mem ht)
  have base : Text.allBlank (t.site.layout settings).base = true := by
    rw [isSite.same, CallSite.layout, siteOf, String.toList_ofList]
    exact Text.Source.allBlank_lineIndent _ _
  have newline : (∀ c ∈ (t.site.layout settings).newline, c ∉ methodWord) ∧
      (t.site.layout settings).newline ≠ [] := by
    rw [isSite.same]
    exact newlineOf_apart _
  refine ⟨?_, fun start stop atStart atStop => ?_⟩
  · show Text.Sealed methodWord replacement.text.toList
    rw [rendered]
    exact Listener.sealed_render
  · have spans : (pieces.map Piece.slot).Pairwise fun a b => a.stop ≤ b.start := by
      rw [makes.dealt.slots]
      exact (Callback.leafSlots_spans (isSite.belongs clean)).2
    have slots : ∀ s ∈ pieces.map Piece.slot, block.start ≤ s.start ∧ s.start ≤ s.stop ∧
        s.stop ≤ block.stop := by
      intro s hs
      rw [makes.dealt.slots] at hs
      obtain ⟨solid, low, high⟩ := (Callback.leafSlots_spans (isSite.belongs clean)).1 s hs
      have := solid.wide
      omega
    have own : (start : Int) = t.site.start := atStart.symm
    have own' : (stop : Int) = t.site.stop := atStop.symm
    calc mentions replacement.text
        ≤ (settings.methodOrder.map fun b =>
            ((emittedIn pieces b).map fun s => mentions s.text).sum).sum := by
          rw [rendered]
          exact Listener.mentions_render_le (foreign.names listed known) base
            valid.indentBlank newline.1 newline.2
      _ = (pieces.map fun q => mentions q.text).sum := sum_emittedIn valid.order pieces
      _ ≤ (pieces.map fun q => spare methodWord text.toList (usedOffsets ts) q.slot.start
            q.slot.stop).sum :=
          List.sum_le_sum fun q hq => course.mentions_piece_le clean split edit makes before hq
      _ = ((pieces.map fun q => (q.slot.start, q.slot.stop)).map fun s =>
            spare methodWord text.toList (usedOffsets ts) s.1 s.2).sum := by
          rw [List.map_map]
          rfl
      _ ≤ spare methodWord text.toList (usedOffsets ts) block.start block.stop := by
          refine Text.sum_spare_le methodWord_ne_nil (fun s hs => ?_) ?_
          · obtain ⟨q, hq, rfl⟩ := List.mem_map.1 hs
            exact slots q.slot (List.mem_map_of_mem hq)
          · rw [List.pairwise_map] at spans ⊢
            exact spans
      _ ≤ spare methodWord text.toList (usedOffsets ts) start stop :=
          Text.spare_mono (by omega) (by omega)

/-- What each converted site is replaced by holds the mentions that the conversion leaves in it. -/
theorem Course.frugal {e : Edit} (he : e ∈ replacements ts) :
    e.Frugal methodWord text.toList (usedOffsets ts) := by
  have each : ∀ (n : Nat) (earlier : List Turn) (t : Turn) (later : List Turn) (e : Edit),
      earlier.length = n → ts = earlier ++ t :: later → t.edit? = some e →
        e.Frugal methodWord text.toList (usedOffsets ts) := by
    intro n
    induction n using Nat.strongRecOn with
    | ind n ih =>
      intro earlier t later e size split edit
      refine course.frugal_of_earlier clean valid foreign split edit fun f hf => ?_
      obtain ⟨s, hs, made⟩ := List.mem_filterMap.1 hf
      obtain ⟨front, back, rfl⟩ := List.append_of_mem hs
      refine ih front.length ?_ front s (back ++ t :: later) f rfl ?_ made
      · rw [← size, List.length_append, List.length_cons]
        omega
      · rw [split, List.append_assoc, List.cons_append]
  obtain ⟨t, ht, edit⟩ := List.mem_filterMap.1 he
  obtain ⟨earlier, later, split⟩ := List.append_of_mem ht
  exact each _ earlier t later e rfl split edit

end

end

/-! ### Imports -/

/-- Every listener call needs the same imports. -/
theorem imports_of_replacement {settings : Settings} {site : CallSite} {buckets : Callback.Buckets}
    {elementType : String} {r : Replacement}
    (h : site.replacement settings buckets elementType = .ok r) : r.imports = listenerImports := by
  rw [CallSite.replacement] at h
  cases bodies : site.bodies buckets with
  | error p =>
    rw [bodies] at h
    cases h
  | ok bodies' =>
    rw [bodies] at h
    cases h
    rfl

/-- What an attempt comes to, at the line of the site: a diagnostic or a replacement. -/
theorem attempt_eq_ok {settings : Settings} {site : CallSite} {outcome : Outcome}
    (settles : site.attempt settings = .ok outcome) :
    outcome.line = site.line ∧ ((∃ d, outcome.result = .error d) ∨
      ∃ buckets elementType r, site.replacement settings buckets elementType = .ok r ∧
        outcome.result = .ok r) := by
  cases classified : Callback.classify site.parameters site.arena site.body with
  | error p =>
    rw [CallSite.attempt, classified] at settles
    cases settles
  | ok buckets =>
    rw [attempt_eq settings classified] at settles
    split at settles
    · cases settles
      exact ⟨rfl, .inl ⟨_, rfl⟩⟩
    · rename_i elementType _
      cases replaced : site.replacement settings buckets elementType with
      | error p =>
        rw [replaced] at settles
        cases settles
      | ok made =>
        rw [replaced] at settles
        cases settles
        exact ⟨rfl, .inr ⟨buckets, elementType, made, replaced, rfl⟩⟩

theorem imports_of_attempt {settings : Settings} {site : CallSite} {outcome : Outcome}
    {r : Replacement} (settles : site.attempt settings = .ok outcome)
    (result : outcome.result = .ok r) : r.imports = listenerImports := by
  obtain ⟨_, ⟨d, failed⟩ | ⟨buckets, elementType, made, replaced, same⟩⟩ := attempt_eq_ok settles
  · rw [failed] at result
    cases result
  · rw [same] at result
    cases result
    exact imports_of_replacement replaced

/-- A conversion imports only what listener calls need. -/
theorem Run.pending {settings : Settings} {source : List UInt8} {p q : Progress} {ts : List Turn}
    (h : Run settings source p ts q) {name : String} (hn : name ∈ q.imports.pending) :
    name ∈ p.imports.pending ∨ name ∈ listenerImports := by
  induction h with
  | done p => exact Or.inl hn
  | @turn p q site embedded outcome ts embeds settles more ih =>
    refine (ih hn).elim (fun before => ?_) Or.inr
    rw [Progress.record] at before
    split at before
    · exact Or.inl before
    · rename_i r result
      rw [imports_of_attempt settles result] at before
      exact Imports.mem_ensureAll before

/-! ### The text that a conversion makes -/

section

variable {settings : Settings} {file text : String} {ts : List Turn} {done : Progress}
  (course : Course settings file text ts done)
include course

/-- The imports bring in no mention. -/
theorem Course.frugal_of_mem_insertions {used : List Nat} {e : Edit}
    (he : e ∈ insertions (CompilationUnit.ofString text) done) :
    e.Frugal methodWord text.toList used := by
  have pending : ∀ name ∈ done.imports.pending, mentions name = 0 := by
    intro name hn
    rcases course.run.pending hn with before | needed
    · cases before
    · exact mentions_of_mem_listenerImports needed
  unfold insertions at he
  split at he
  · cases he
  · have idle := Imports.idle_of_mem_edits pending he
    refine ⟨idle.closed, fun start stop _ _ => ?_⟩
    rw [show times methodWord e.replacement.toList = 0 from idle.mentions]
    exact Nat.zero_le _

variable (clean : (CompilationUnit.ofString text).hasSyntaxErrors = false)
include clean

/-- The used mentions are among those of the text. -/
theorem Course.spare_add_length_le (lo hi : Nat) :
    spare methodWord text.toList (usedOffsets ts) lo hi + (usedOffsets ts).length ≤
      mentions text :=
  Text.spare_add_length_le course.nodup_usedOffsets fun _ hp =>
    (course.of_mem_usedOffsets clean hp).1

/-- The text that a conversion makes holds the mentions that it leaves in the text. -/
theorem Course.mentions_le (valid : settings.Valid) (foreign : Foreign settings file text)
    {conversion : Conversion} (converted : convert settings file text = .ok conversion) :
    mentions conversion.text ≤
      spare methodWord text.toList (usedOffsets ts) 0 (encodeChars text.toList).length := by
  have pending : Pending text.toList done.edits := course.after ▸ course.followed.pending
  obtain ⟨inserted, replaced⟩ := fits_insertions clean course.table pending
  have spliced := course.spliced conversion converted
  rw [Text.encode_eq, Text.encode_eq] at spliced
  have whole : text.toList = [] ++ (text.toList ++ []) := (List.append_nil text.toList).symm
  refine spliced.times_le methodWord_ne_nil (fun e he => ?_) whole rfl (Nat.zero_add _).symm
    (fun e he => ?_) fun p hp _ _ => ?_
  · rcases List.mem_append.1 (Text.mem_inOrder.1 he) with he | he
    · exact (inserted e he).1
    · exact replaced e he
  · rcases List.mem_append.1 (Text.mem_inOrder.1 he) with he | he
    · exact course.frugal_of_mem_insertions he
    · rw [course.after] at he
      exact course.frugal clean valid foreign (mem_topmost.1 he).1
  · obtain ⟨_, f, hf, atStart, size⟩ := course.of_mem_usedOffsets clean hp
    obtain ⟨e, he, first, last⟩ := exists_topmost (fun _ => course.wide) course.precedes hf
    rw [← course.after] at he
    exact ⟨e, Text.mem_inOrder.2 (List.mem_append_right _ he), by omega, by omega⟩

end

end MonoTap

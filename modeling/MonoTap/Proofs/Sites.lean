import MonoTap.CallSite.Conversion
import MonoTap.Proofs.Layout

/-!
# The call sites of a text

Each call site comes from an eligible call, whose callback is a block inside the call. Of two sites,
one is nested in the other or they are apart, and in the order of their sizes a site comes after the
sites nested in it.
-/

set_option autoImplicit false

namespace MonoTap

open Callback (Resolution)
open Java (CompilationUnit Cursor Node Spans)

/-! ### The callback of a call -/

/-- The callback of a call. -/
def callbackOf (call : Node) : Node :=
  ((argumentsOf call).head?).getD call

/-- The bindings in the callback of a call. -/
def scopeOf (u : CompilationUnit) (parameters : List (String × Option String)) (block : Node) :
    Resolution :=
  Resolution.ofBody u.source parameters block

/-- The two parameters of a callback. -/
def parametersOf (parameters : List (String × Option String)) : Callback.Parameters :=
  ⟨parameterAt parameters 0, parameterAt parameters 1⟩

/-- The call site of a call with a callback of the given parameters and block. -/
def siteOf (u : CompilationUnit) (file : String) (call : Cursor)
    (parameters : List (String × Option String)) (block : Node) : CallSite :=
  let resolution := scopeOf u parameters block
  let entries := Callback.entriesOf u.source resolution block
  { file
    line := callLine u.source call.node
    receiver := partText u.source call.node .object
    parameters := parametersOf parameters
    receiverType := (call.node.child? .object).bind fun receiver =>
      Receiver.type? u.source (call.down receiver)
    arena := Callback.arenaOf u.source resolution entries
    body := Callback.positionsFrom 0 entries
    start := callStart call.node
    stop := call.node.stop
    indentText := String.ofList (u.source.lineIndent (callStart call.node))
    reservedNames := Callback.sortedNames (resolution.freeNames ++ resolution.declaredNames)
    newline := Text.newlineOf u.source.toBytes }

/-- The callback of an eligible call has two parameters and a block, which make a site of it. -/
structure IsSite (u : CompilationUnit) (file : String) (call : Cursor)
    (parameters : List (String × Option String)) (block : Node) (site : CallSite) : Prop where
  eligible : call ∈ eligibleCalls u
  parts : callbackParts u.source (callbackOf call.node) = .ok (parameters, block)
  same : site = siteOf u file call parameters block

theorem ofCall_eq (u : CompilationUnit) (file : String) (call : Cursor) :
    CallSite.ofCall u file call = (callbackParts u.source (callbackOf call.node)).map
      fun parts => siteOf u file call parts.1 parts.2 := by
  have opened : CallSite.ofCall u file call =
      (callbackParts u.source (callbackOf call.node)).bind fun parts =>
        .ok (siteOf u file call parts.1 parts.2) := rfl
  rw [opened]
  cases callbackParts u.source (callbackOf call.node) <;> rfl

theorem ofCall_eq_ok {u : CompilationUnit} {file : String} {call : Cursor} {site : CallSite}
    (eligible : call ∈ eligibleCalls u) (h : CallSite.ofCall u file call = .ok site) :
    ∃ parameters block, IsSite u file call parameters block site := by
  rw [ofCall_eq] at h
  cases parts : callbackParts u.source (callbackOf call.node) with
  | error reason =>
    rw [parts] at h
    cases h
  | ok found =>
    rw [parts] at h
    cases h
    exact ⟨found.1, found.2, eligible, parts, rfl⟩

/-- The block of a callback is its body. -/
theorem callbackParts_eq_ok {source : Text.Source} {callback block : Node}
    {parameters : List (String × Option String)}
    (h : callbackParts source callback = .ok (parameters, block)) :
    callback.child? .body = some block ∧ block.is .block = true := by
  rw [callbackParts] at h
  split at h
  · dsimp only at h
    split at h
    · split at h
      · rename_i body hbody
        split at h
        · rename_i isBlock
          cases h
          exact ⟨hbody, isBlock⟩
        · cases h
      · cases h
    · cases h
  · cases h

/-- The callback of an eligible call is its argument. -/
theorem mem_of_callbackOf {u : CompilationUnit} {call : Cursor} (h : call ∈ eligibleCalls u) :
    ∃ arguments ∈ call.node.children, arguments.role = some .arguments ∧
      callbackOf call.node ∈ arguments.children := by
  have eligible := (List.mem_filter.1 h).2
  have one : (argumentsOf call.node).length = 1 := by
    rw [isEligible, Bool.and_eq_true] at eligible
    have rest := eligible.2
    split at rest
    · cases rest
    · rw [Bool.and_eq_true] at rest
      exact eq_of_beq rest.1
  obtain ⟨callback, single⟩ := List.length_eq_one_iff.1 one
  rw [callbackOf, single, List.head?_cons, Option.getD_some]
  rw [argumentsOf] at single
  cases found : call.node.child? .arguments with
  | none =>
    rw [found] at single
    cases single
  | some arguments =>
    rw [found] at single
    have given : Callback.uncommented arguments = [callback] := single
    refine ⟨arguments, Node.mem_children_of_child? found, Node.role_of_child? found, ?_⟩
    apply Callback.mem_children_of_mem_uncommented
    rw [given]
    exact List.mem_singleton_self callback

namespace IsSite

variable {u : CompilationUnit} {file : String} {call : Cursor}
  {parameters : List (String × Option String)} {block : Node} {site : CallSite}

theorem start (h : IsSite u file call parameters block site) :
    site.start = callStart call.node := by
  rw [h.same]
  rfl

theorem stop (h : IsSite u file call parameters block site) : site.stop = call.node.stop := by
  rw [h.same]
  rfl

/-- The block of a callback stands in the arguments of the call. -/
theorem exists_arguments (h : IsSite u file call parameters block site) :
    ∃ arguments ∈ call.node.children, arguments.role = some .arguments ∧
      block ∈ arguments.preorder := by
  obtain ⟨arguments, harguments, role, callback⟩ := mem_of_callbackOf h.eligible
  have body := Node.mem_children_of_child? (callbackParts_eq_ok h.parts).1
  refine ⟨arguments, harguments, role, Node.mem_preorder_of_mem_children callback ?_⟩
  exact Node.mem_preorder_of_mem_children body block.self_mem_preorder

theorem inside (h : IsSite u file call parameters block site) :
    block ∈ Node.preorderAll call.node.children := by
  obtain ⟨arguments, harguments, _, inside⟩ := h.exists_arguments
  exact Node.mem_preorderAll.2 ⟨arguments, harguments, inside⟩

end IsSite

/-! ### The sites of a unit -/

/-- The call sites are the eligible calls that are call sites, in order. -/
theorem fst_callSites (u : CompilationUnit) (file : String) :
    (callSites u file).1 =
      (eligibleCalls u).filterMap fun call => (CallSite.ofCall u file call).toOption := by
  rw [callSites, List.filterMap_map]
  refine congrArg (List.filterMap · _) (funext fun call => ?_)
  rw [Function.comp, siteOrOutcome]
  cases CallSite.ofCall u file call <;> rfl

theorem exists_isSite {u : CompilationUnit} {file : String} {site : CallSite}
    (h : site ∈ (callSites u file).1) :
    ∃ call parameters block, IsSite u file call parameters block site := by
  rw [fst_callSites] at h
  obtain ⟨call, eligible, made⟩ := List.mem_filterMap.1 h
  refine ⟨call, ofCall_eq_ok eligible ?_⟩
  cases built : CallSite.ofCall u file call with
  | error reason =>
    rw [built] at made
    cases made
  | ok found =>
    rw [built] at made
    cases made
    rfl

namespace CallSite

/-- A site that lies in another one, after the name of its method. -/
def Nested (a b : CallSite) : Prop :=
  b.start < a.start ∧ a.stop ≤ b.stop

/-- Of two sites, one ends before the other begins. -/
def Apart (a b : CallSite) : Prop :=
  a.stop ≤ b.start ∨ b.stop ≤ a.start

end CallSite

section

variable {text file : String} (clean : (CompilationUnit.ofString text).hasSyntaxErrors = false)
include clean

theorem IsSite.isCall {call : Cursor} {parameters : List (String × Option String)} {block : Node}
    {site : CallSite} (h : IsSite (CompilationUnit.ofString text) file call parameters block site) :
    IsCall text.toList call.node :=
  (isCall_of_mem_eligibleCalls clean h.eligible).1

theorem IsSite.spans {call : Cursor} {parameters : List (String × Option String)} {block : Node}
    {site : CallSite} (h : IsSite (CompilationUnit.ofString text) file call parameters block site) :
    Spans text.toList site.start site.stop := by
  rw [h.start, h.stop]
  exact (h.isCall clean).spans.1

theorem IsSite.belongs {call : Cursor} {parameters : List (String × Option String)} {block : Node}
    {site : CallSite} (h : IsSite (CompilationUnit.ofString text) file call parameters block site) :
    block.Belongs text.toList :=
  (h.isCall clean).belongs.inside_children h.inside

/-- The block of a site stands after the name of the method and before the closing parenthesis. -/
theorem IsSite.bounds {call : Cursor} {parameters : List (String × Option String)} {block : Node}
    {site : CallSite} (h : IsSite (CompilationUnit.ofString text) file call parameters block site) :
    site.start < block.start ∧ block.stop ≤ site.stop := by
  have isCall := h.isCall clean
  obtain ⟨arguments, harguments, role, inside⟩ := h.exists_arguments
  obtain ⟨name, hname, part, start, _, _, belongs⟩ := isCall.exists_name
  have order := isCall.belongs.name_before_arguments isCall.invocation hname part harguments role
  have bounds := (isCall.belongs.child harguments).bounds inside
  have within := (isCall.belongs.placed.of_mem harguments).2.2.2
  have wide := belongs.spans.wide
  rw [h.start, h.stop, start]
  omega

/-- Two nodes of a text are one, or one lies inside the other, or one ends before the other begins.
-/
theorem nodes_related {a b : Node} (ha : a ∈ Node.preorderAll (Java.parse text.toList).children)
    (hb : b ∈ Node.preorderAll (Java.parse text.toList).children) :
    a = b ∨ (b ∈ Node.preorderAll a.children ∨ a.stop ≤ b.start) ∨
      (a ∈ Node.preorderAll b.children ∨ b.stop ≤ a.start) := by
  have ordered := (Java.placed_parse clean).pairwise_preorder
  apply List.Pairwise.forall_of_forall_of_flip
    (R := fun a b => a = b ∨ (b ∈ Node.preorderAll a.children ∨ a.stop ≤ b.start) ∨
      (a ∈ Node.preorderAll b.children ∨ b.stop ≤ a.start)) ?_ ?_ ?_ ha hb
  · exact fun _ _ => Or.inl rfl
  · exact ordered.imp fun h => Or.inr (Or.inl h)
  · exact ordered.imp fun h => Or.inr (Or.inr h)

/-- What the conversion of a call replaces lies in the slot of exactly one leaf of a site if the call
stands in the block of the site, and in none otherwise. -/
theorem IsSite.carriers {call other : Cursor} {parameters : List (String × Option String)}
    {block : Node} {site : CallSite} {p : Callback.Parameters} {r : Resolution}
    {source : Text.Source}
    (h : IsSite (CompilationUnit.ofString text) file call parameters block site)
    (eligible : other ∈ eligibleCalls (CompilationUnit.ofString text)) :
    (other.node ∈ Node.preorderAll block.children → ((Callback.leafSlots source p r block).filter
        (·.carries (callStart other.node) other.node.stop)).length = 1) ∧
      (other.node ∉ Node.preorderAll block.children → (Callback.leafSlots source p r block).filter
        (·.carries (callStart other.node) other.node.stop) = []) := by
  obtain ⟨isCall, inText⟩ := isCall_of_mem_eligibleCalls clean eligible
  have belongs := h.belongs clean
  refine ⟨Callback.length_carriers isCall belongs, fun outside => ?_⟩
  apply Callback.carriers_eq_nil isCall belongs
  have blockInText : block ∈ Node.preorderAll (Java.parse text.toList).children := by
    obtain ⟨n, hn, hcall⟩ :=
      Node.mem_preorderAll.1 (isCall_of_mem_eligibleCalls clean h.eligible).2
    refine Node.mem_preorderAll.2 ⟨n, hn, ?_⟩
    exact Node.mem_preorder_of_inside hcall h.inside
  rcases nodes_related clean blockInText inText with same | (inside | before) | (inside | after)
  · have isBlock := (callbackParts_eq_ok h.parts).2
    have label := Callback.label_of_isCall isCall
    rw [same, Node.is, label] at isBlock
    cases isBlock
  · exact (outside inside).elim
  · exact Or.inr (Or.inl before)
  · exact Or.inr (Or.inr inside)
  · exact Or.inl after

/-- Of two sites, the second is nested in the first or they are apart. -/
theorem callSites_pairwise :
    (callSites (CompilationUnit.ofString text) file).1.Pairwise fun a b =>
      b.Nested a ∨ a.Apart b := by
  rw [fst_callSites, List.pairwise_filterMap]
  refine (eligibleCalls_pairwise clean).imp_of_mem fun {a b} ha hb follows s hs t ht => ?_
  have made {call : Cursor} {site : CallSite}
      (eligible : call ∈ eligibleCalls (CompilationUnit.ofString text))
      (h : (CallSite.ofCall (CompilationUnit.ofString text) file call).toOption = some site) :
      site.start = callStart call.node ∧ site.stop = call.node.stop := by
    cases built : CallSite.ofCall (CompilationUnit.ofString text) file call with
    | error reason =>
      rw [built] at h
      cases h
    | ok found =>
      rw [built] at h
      cases h
      obtain ⟨parameters, block, isSite⟩ := ofCall_eq_ok eligible built
      exact ⟨isSite.start, isSite.stop⟩
  obtain ⟨startA, stopA⟩ := made ha hs
  obtain ⟨startB, stopB⟩ := made hb ht
  unfold Follows at follows
  unfold CallSite.Nested CallSite.Apart
  omega

/-- In the order of their sizes, a site comes after the sites nested in it. -/
theorem innermostFirst_pairwise :
    (innermostFirst (callSites (CompilationUnit.ofString text) file).1).Pairwise fun a b =>
      a.Nested b ∨ a.Apart b := by
  have wide : ∀ s ∈ (callSites (CompilationUnit.ofString text) file).1, s.start < s.stop := by
    intro s hs
    obtain ⟨call, parameters, block, isSite⟩ := exists_isSite hs
    exact (isSite.spans clean).wide
  generalize hsites : (callSites (CompilationUnit.ofString text) file).1 = sites at wide
  have related : sites.Pairwise fun a b => a.Nested b ∨ b.Nested a ∨ a.Apart b :=
    hsites ▸ (callSites_pairwise clean).imp fun h => Or.inr h
  have perm : (innermostFirst sites).Perm sites := List.mergeSort_perm sites _
  have related := perm.symm.pairwise related fun {a b} h => by
    unfold CallSite.Nested CallSite.Apart at h ⊢
    omega
  have sorted : (innermostFirst sites).Pairwise fun a b => a.stop - a.start ≤ b.stop - b.start := by
    have sorted := @List.pairwise_mergeSort CallSite
      (fun a b => decide (a.stop - a.start ≤ b.stop - b.start))
      (fun a b c first second => by
        simp only [decide_eq_true_eq] at first second ⊢
        omega)
      (fun a b => by
        simp only [Bool.or_eq_true, decide_eq_true_eq]
        omega) sites
    exact sorted.imp fun h => of_decide_eq_true h
  refine (sorted.and related).imp_of_mem fun {a b} ha hb h => ?_
  have wideA := wide a (perm.mem_iff.1 ha)
  have wideB := wide b (perm.mem_iff.1 hb)
  unfold CallSite.Nested CallSite.Apart at h ⊢
  omega

end

end MonoTap

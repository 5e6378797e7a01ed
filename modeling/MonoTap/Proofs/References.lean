import MonoTap.Proofs.Embedding
import MonoTap.Proofs.Partition
import MonoTap.Proofs.Walk

/-!
# References in the methods of a listener

When the conversion of a site comes with no warning, every statement that mentions a parameter of the
callback goes to the method that has this parameter. A statement that mentions a local variable goes
after the statement that declares it, if both go to one method; a warning is given for parameters
only, so the two may go to different methods.
-/

set_option autoImplicit false

namespace MonoTap.Callback

open Java (Node Placed Solid)
open Text (Source)

/-! ### Dividing a walk at an offset -/

/-- The names before an offset are met before those from it on. -/
def Divided (p : Nat) (events : List ScopeEvent) : Prop :=
  ∃ before after, events = before ++ after ∧
    (∀ e ∈ before, ∀ offset, e.offset? = some offset → offset < p) ∧
    ∀ e ∈ after, ∀ offset, e.offset? = some offset → p ≤ offset

section

variable {p lo hi : Nat} {first second : List ScopeEvent} {source : Source} {text : List Char}
  {ns : List Node} {n c : Node}

theorem divided_of_before (h : ∀ e ∈ first, ∀ offset, e.offset? = some offset → offset < p) :
    Divided p first :=
  ⟨first, [], (List.append_nil _).symm, h, fun _ he => (List.not_mem_nil he).elim⟩

theorem divided_of_after (h : ∀ e ∈ first, ∀ offset, e.offset? = some offset → p ≤ offset) :
    Divided p first :=
  ⟨[], first, rfl, fun _ he => (List.not_mem_nil he).elim, h⟩

theorem Divided.after_append (h : Divided p second)
    (before : ∀ e ∈ first, ∀ offset, e.offset? = some offset → offset < p) :
    Divided p (first ++ second) := by
  obtain ⟨front, back, rfl, low, high⟩ := h
  refine ⟨first ++ front, back, (List.append_assoc ..).symm, ?_, high⟩
  intro e he
  exact (List.mem_append.1 he).elim (before e) (low e)

theorem Divided.append (h : Divided p first)
    (after : ∀ e ∈ second, ∀ offset, e.offset? = some offset → p ≤ offset) :
    Divided p (first ++ second) := by
  obtain ⟨front, back, rfl, low, high⟩ := h
  refine ⟨front, back ++ second, List.append_assoc .., low, ?_⟩
  intro e he
  exact (List.mem_append.1 he).elim (high e) (after e)

theorem Divided.inScope {l : List Step} (h : Divided p (eventsOf source l)) :
    Divided p (eventsOf source (inScope l)) := by
  rw [eventsOf_inScope]
  have opened : Divided p (.enter :: eventsOf source l) := by
    rw [← List.singleton_append]
    apply h.after_append
    intro e he offset ho
    cases List.mem_singleton.1 he
    cases ho
  apply opened.append
  intro e he offset ho
  cases List.mem_singleton.1 he
  cases ho

/-- The names that a walk over a node meets stand in the node. -/
theorem bounds_of_mem_scopeEvents (h : n.Belongs text) {e : ScopeEvent}
    (he : e ∈ scopeEvents source n) {offset : Nat} (ho : e.offset? = some offset) :
    n.start ≤ offset ∧ offset < n.stop := by
  obtain ⟨m, hm, rfl⟩ := exists_of_mem_scopeEvents he ho
  have bounds := h.bounds hm
  have wide := (h.inside hm).spans.wide
  omega

/-- A walk over nodes is divided where it is divided over the node around the offset, if there is
one. -/
theorem divided_flatMap (placed : Placed (Solid text) lo ns hi)
    (belongs : ∀ n ∈ ns, n.Belongs text)
    (around : ∀ n ∈ ns, n.start < p → p < n.stop → Divided p (scopeEvents source n)) :
    Divided p (ns.flatMap (scopeEvents source)) := by
  induction placed with
  | nil => exact divided_of_before fun _ he => (List.not_mem_nil he).elim
  | @cons lo hi n ns low inside spans tail _ ih =>
    have here := belongs n List.mem_cons_self
    have others : ∀ m ∈ ns, m.Belongs text := fun m hm => belongs m (List.mem_cons_of_mem _ hm)
    have later {m : Nat} (hm : m ≤ n.stop) : ∀ e ∈ ns.flatMap (scopeEvents source),
        ∀ offset, e.offset? = some offset → m ≤ offset := by
      intro e he offset ho
      obtain ⟨c, hc, he⟩ := List.mem_flatMap.1 he
      have order := (tail.of_mem hc).1
      have bounds := bounds_of_mem_scopeEvents (others c hc) he ho
      omega
    rw [List.flatMap_cons]
    by_cases ends : n.stop ≤ p
    · apply Divided.after_append
      · exact ih others fun m hm => around m (List.mem_cons_of_mem _ hm)
      · intro e he offset ho
        have := (bounds_of_mem_scopeEvents here he ho).2
        omega
    · by_cases begins : p ≤ n.start
      · apply divided_of_after
        intro e he offset ho
        rcases List.mem_append.1 he with he | he
        · have := (bounds_of_mem_scopeEvents here he ho).1
          omega
        · exact later (by omega) e he offset ho
      · exact (around n List.mem_cons_self (by omega) (by omega)).append (later (by omega))

theorem steps_of_block (h : n.is .block = true) :
    steps source n = inScope (visits n.namedChildren) := by
  have label : n.label = .kind .block := eq_of_beq h
  rw [steps, label]

theorem steps_of_ifStatement (h : n.is .ifStatement = true) :
    steps source n = visits n.namedChildren := by
  have label : n.label = .kind .ifStatement := eq_of_beq h
  rw [steps, label]

/-- A walk over a block is divided where no node of the block, or the walk over the node there, is
cut. -/
theorem divided_block (is : n.is .block = true) (h : n.Belongs text)
    (around : ∀ c ∈ n.namedChildren, c.start < p → p < c.stop →
      Divided p (scopeEvents source c)) : Divided p (scopeEvents source n) := by
  rw [scopeEvents_eq, steps_of_block is]
  apply Divided.inScope
  rw [eventsOf_visits]
  apply divided_flatMap (h.placed.sublist List.filter_sublist) _ around
  intro c hc
  exact h.child (Node.mem_children_of_mem_namedChildren hc)

/-- No node is cut where a node beside it begins. -/
theorem divided_block_at_child (is : n.is .block = true) (h : n.Belongs text)
    (hc : c ∈ n.namedChildren) : Divided c.start (scopeEvents source n) := by
  apply divided_block is h
  intro d hd begins ends
  have order := h.placed.apart (Node.mem_children_of_mem_namedChildren hd)
    (Node.mem_children_of_mem_namedChildren hc)
  have wide := (h.child (Node.mem_children_of_mem_namedChildren hc)).spans.wide
  rcases order with rfl | order | order <;> omega

/-- A walk over a test is divided where a node of one of its branches begins. -/
theorem divided_branch (is : n.is .ifStatement = true) (h : n.Belongs text) {part : Java.Role}
    (hc : c ∈ branchNodes n part) : Divided c.start (scopeEvents source n) := by
  have belongs := h.inside_children (mem_children_of_mem_branchNodes hc)
  have wide := belongs.spans.wide
  rw [branchNodes] at hc
  split at hc
  · cases hc
  · rename_i b hb
    have child := Node.mem_children_of_child? hb
    rw [scopeEvents_eq, steps_of_ifStatement is, eventsOf_visits]
    apply divided_flatMap (h.placed.sublist List.filter_sublist)
    · intro d hd
      exact h.child (Node.mem_children_of_mem_namedChildren hd)
    · intro d hd begins ends
      split at hc
      · rename_i isBlock
        have bounds := (h.child child).bounds (mem_preorder_of_mem_namedChildren hc)
        rcases h.placed.apart (Node.mem_children_of_mem_namedChildren hd) child with
          rfl | order | order
        · exact divided_block_at_child isBlock (h.child child) hc
        · omega
        · omega
      · cases List.mem_singleton.1 hc
        rcases h.placed.apart (Node.mem_children_of_mem_namedChildren hd) child with
          rfl | order | order <;> omega

/-- A walk over a callback is divided where a leaf begins. -/
theorem divided_leafNode {q : Parameters} {r : Resolution} (is : n.is .block = true)
    (h : n.Belongs text) (hc : c ∈ leafNodes q r n) : Divided c.start (scopeEvents source n) := by
  obtain ⟨d, hd, hc⟩ := List.mem_flatMap.1 hc
  have child := Node.mem_children_of_mem_namedChildren hd
  rw [leafNodesAt] at hc
  split at hc
  · rename_i splits
    have isTest := isIfStatement_of_splits splits
    have inBranch : c ∈ Node.preorderAll d.children :=
      (List.mem_append.1 hc).elim mem_children_of_mem_branchNodes mem_children_of_mem_branchNodes
    have bounds := (h.child child).placed.bounds inBranch
    have wide := ((h.child child).inside_children inBranch).spans.wide
    apply divided_block is h
    intro e he begins ends
    rcases h.placed.apart (Node.mem_children_of_mem_namedChildren he) child with
      rfl | order | order
    · exact (List.mem_append.1 hc).elim (divided_branch isTest (h.child child))
        (divided_branch isTest (h.child child))
    · omega
    · omega
  · cases List.mem_singleton.1 hc
    exact divided_block_at_child is h hd

/-- A walk over a callback is divided where the slot of a leaf begins. -/
theorem divided_leafSlot {q : Parameters} {r : Resolution} {s : Slot} (is : n.is .block = true)
    (h : n.Belongs text) (hs : s ∈ leafSlots source q r n) :
    Divided s.start (scopeEvents source n) := by
  obtain ⟨first, others, holds, inside, _⟩ := (grouped_leafSlots h).group_of_mem
    (placed_leafNodes h) (fun m hm => h.inside_children (mem_preorder_of_mem_leafNodes hm)) hs
  rw [holds.start]
  exact divided_leafNode is h (inside first List.mem_cons_self)

end

/-! ### Blocks without guards -/

/-- A block without guards has a plain entry for each slot. -/
theorem entriesOf_plain {source : Source} {r : Resolution} {block : Node}
    (plain : ∀ s ∈ slotsOf source r block, s.isGuard r = false) :
    entriesOf source r block = (slotsOf source r block).map fun s => .plain s.start s.stop := by
  rw [entriesOf]
  apply List.map_congr_left
  intro s hs
  apply entryOf_plain
  intro n hn
  have none := plain s hs
  rw [Slot.isGuard, hn, Option.any_some, isGuard] at none
  cases test : guardTest? r n with
  | none => rfl
  | some found =>
    rw [test] at none
    cases none

/-- Whether a statement mentions a binding, by the names in the callback that denote one. -/
theorem uses_statementAt {r : Resolution} {l : List (Nat × Nat)}
    (h : r.occurrences.map (fun o => (o.offset, o.binding.id)) = l) (source : Source)
    (start stop : Nat) (g : Option Guard) (b : Binding) :
    (statementAt source r start stop g).uses b =
      l.any fun q => decide (start ≤ q.1) && decide (q.1 < stop) && q.2 == b.id := by
  rw [Bool.eq_iff_iff, ← h, List.any_map]
  show (r.referencesIn start stop).contains b.id = true ↔ _
  rw [List.contains_iff_mem, mem_referencesIn, List.any_eq_true]
  simp [and_assoc]

/-- A statement without a test is assigned as a whole. -/
theorem assignedAt_plain {p : Parameters} {arena : Arena} {i : Int} {s : Statement}
    (h : arena.get? i = some s) (plain : s.guard? = none) :
    assignedAt p arena i = [(p.bucketOf s, i)] := by
  rw [assignedAt, Arena.guardAt?, h, Option.bind_some, plain]
  simp [Parameters.bucketAt, h]

/-! ### Where bindings are declared -/

/-- The offset at which the body of a callback declares the binding with the given number. The
parameters have numbers of their own. -/
def declaredIn? (source : Source) (parameters : List (String × Option String)) (block : Node)
    (id : Nat) : Option Nat :=
  (Resolution.start parameters).declaredAt? (scopeEvents source block) id

section

variable {source : Source} {parameters : List (String × Option String)} {block : Node}

/-- What a name denotes is a parameter or is declared in the body. -/
theorem parameter_or_declared {o : Occurrence}
    (ho : o ∈ (Resolution.ofBody source parameters block).occurrences) :
    (0 < o.binding.id ∧ o.binding.id ≤ parameters.length) ∨
      (declaredIn? source parameters block o.binding.id).isSome := by
  have numbered := (Resolution.numbered_start parameters).foldl (scopeEvents source block)
  have known := numbered.bindings.occurrences o ho
  by_cases parameter : o.binding.id ≤ parameters.length
  · exact Or.inl ⟨known.1, parameter⟩
  · apply Or.inr
    apply Resolution.declaredAt?_isSome
    · simp only [Resolution.start, Resolution.parameterBindings, List.length_map,
        List.length_zipIdx]
      omega
    · exact known.2

/-- Where a walk is divided, a name before that offset denotes nothing declared from it on. -/
theorem declared_before {p : Nat} (divided : Divided p (scopeEvents source block)) {o : Occurrence}
    (ho : o ∈ (Resolution.ofBody source parameters block).occurrences) (before : o.offset < p)
    {offset : Nat} (declared : declaredIn? source parameters block o.binding.id = some offset) :
    offset < p := by
  obtain ⟨front, back, split, low, high⟩ := divided
  rw [Resolution.ofBody, split, List.foldl_append] at ho
  rw [declaredIn?, split, Resolution.declaredAt?_append] at declared
  have numbered := (Resolution.numbered_start parameters).foldl front
  generalize front.foldl Resolution.run (Resolution.start parameters) = mid at ho declared numbered
  rcases Resolution.mem_of_mem_occurrences ho with earlier | mentioned
  · have known := Resolution.declaredAt?_of_lt (numbered.bindings.occurrences o earlier).2 back
    rw [known, Option.or_none] at declared
    obtain ⟨e, he, same⟩ := Resolution.mem_of_declaredAt? declared
    exact low e he offset same
  · have := high _ mentioned o.offset rfl
    omega

end

end MonoTap.Callback

namespace MonoTap

open Callback (Bucket Buckets Statement)
open Java (CompilationUnit Cursor Node)

/-! ### The statements of a listener -/

variable {u : CompilationUnit} {file : String} {call : Cursor}
  {parameters : List (String × Option String)} {block : Node} {site : CallSite}

/-- The statements of the leaves in a bucket, with other texts. -/
def statementsIn (site : CallSite) (b : Bucket) : List Statement :=
  (((Callback.assigned site.parameters site.arena site.body).filter (·.1 = b)).map
    Prod.snd).filterMap site.arena.get?

/-- A converted site by the statements in its buckets. -/
theorem exists_of_attempt {settings : Settings} {outcome : Outcome} {replacement : Replacement}
    (covered : site.arena.Covers site.body) (attempted : site.attempt settings = .ok outcome)
    (converted : outcome.result = .ok replacement) :
    site.bodies replacement.buckets = .ok (statementsIn site) ∧
      replacement.notes = Bucket.all.flatMap fun b => site.scopeNotes b (statementsIn site b) := by
  have bodies := bodies_eq_ok (p := site.parameters) covered
  rw [attempt_eq settings (Callback.classify_eq_ok covered)] at attempted
  split at attempted
  · cases attempted
    cases converted
  · rename_i elementType known
    rw [CallSite.replacement, bodies] at attempted
    cases attempted
    cases converted
    exact ⟨bodies, rfl⟩

theorem exists_attempt {settings : Settings} (covered : site.arena.Covers site.body)
    (known : site.elementType.isOk = true) :
    ∃ outcome replacement, site.attempt settings = .ok outcome ∧
      outcome.result = .ok replacement := by
  rw [attempt_eq settings (Callback.classify_eq_ok covered)]
  cases h : site.elementType with
  | error reason =>
    rw [h] at known
    cases known
  | ok elementType =>
    obtain ⟨replacement, made, _⟩ := exists_of_bodies settings elementType
      (bodies_eq_ok (p := site.parameters) covered)
    dsimp only
    rw [made]
    exact ⟨_, replacement, rfl, rfl⟩

theorem withTexts_text (site : CallSite) : site.withTexts Statement.text = site := by
  have same : site.arena.statements.map (fun s => { s with text := Statement.text s }) =
      site.arena.statements := List.map_id' _
  rw [CallSite.withTexts, same]

/-- Without a warning, a method has every parameter that a statement in it mentions. -/
theorem owns_of_scopeNotes {b : Bucket} {statements : List Statement} {s : Statement}
    {parameter : Callback.Binding} (quiet : site.scopeNotes b statements = [])
    (hs : s ∈ statements) (hp : parameter ∈ [site.parameters.value, site.parameters.error])
    (mentioned : parameter.id ∈ s.references) : site.owns b parameter = true := by
  by_cases own : site.owns b parameter = true
  · exact own
  · have uses : s.uses parameter = true := List.contains_iff_mem.2 mentioned
    have noted : site.scopeNote b s parameter ∈ site.scopeNotes b statements := by
      apply List.mem_flatMap_of_mem hs
      apply List.mem_map_of_mem
      apply List.mem_filter.2
      simp [hp, own, uses]
    rw [quiet] at noted
    cases noted

theorem length_of_callbackParts {source : Text.Source} {callback : Node}
    (h : callbackParts source callback = .ok (parameters, block)) : parameters.length = 2 := by
  rw [callbackParts] at h
  split at h
  · dsimp only at h
    split at h
    · rename_i two
      split at h
      · split at h
        · cases h
          exact eq_of_beq two
        · cases h
      · cases h
    · cases h
  · cases h

theorem id_parameterAt (parameters : List (String × Option String)) (i : Nat) :
    (parameterAt parameters i).id = i + 1 := by
  rw [parameterAt]
  split <;> rfl

/-- The parameters of a site have the first two numbers. -/
theorem IsSite.exists_parameter (h : IsSite u file call parameters block site) {id : Nat}
    (positive : 0 < id) (small : id ≤ parameters.length) :
    ∃ parameter ∈ [site.parameters.value, site.parameters.error], parameter.id = id := by
  have two := length_of_callbackParts h.parts
  rw [h.same]
  by_cases first : id = 1
  · exact ⟨_, List.mem_cons_self, (id_parameterAt parameters 0).trans first.symm⟩
  · refine ⟨_, List.mem_cons_of_mem _ List.mem_cons_self, ?_⟩
    apply (id_parameterAt parameters 1).trans
    omega

/-- What a statement covers and mentions. -/
def Callback.Statement.extent (s : Statement) : Nat × Nat × List Nat :=
  (s.start, s.stop, s.references)

/-- The statements in a bucket are those of some leaves of the callback, in order. -/
theorem IsSite.statementsIn_sublist (h : IsSite u file call parameters block site)
    (new : Statement → String) (b : Bucket) :
    ((statementsIn (site.withTexts new) b).map Statement.extent).Sublist
      ((Callback.leafSlots u.source site.parameters (scopeOf u parameters block) block).map
        fun s => (s.start, s.stop,
          (scopeOf u parameters block).referencesIn s.start s.stop)) := by
  have extent (i : Int) : ((site.withTexts new).arena.get? i).map Statement.extent =
      ((site.arena.get? i).map Statement.plain).map Statement.extent := by
    rw [get?_withTexts, Option.map_map, Option.map_map]
    rfl
  have all : (Callback.leaves site.parameters site.arena site.body).filterMap
      (fun i => ((site.withTexts new).arena.get? i).map Statement.extent) =
      (Callback.leafSlots u.source site.parameters (scopeOf u parameters block) block).map
        fun s => (s.start, s.stop,
          (scopeOf u parameters block).referencesIn s.start s.stop) := by
    have leaves := congrArg (List.filterMap (Option.map Statement.extent)) h.map_leaves
    rw [List.filterMap_map, List.filterMap_map] at leaves
    simp only [extent]
    apply leaves.trans
    rw [← List.filterMap_eq_map]
    rfl
  rw [statementsIn, List.map_filterMap, ← all, ← @leaves_withTexts _ new,
    ← Callback.map_snd_assigned]
  exact (List.filter_sublist.map Prod.snd).filterMap _

/-- In a bucket a statement comes after those that end before it, and what it mentions is declared
before the statements after it. -/
theorem IsSite.statementsIn_pairwise {text : String}
    (clean : (CompilationUnit.ofString text).hasSyntaxErrors = false)
    (h : IsSite (CompilationUnit.ofString text) file call parameters block site)
    (new : Statement → String) (b : Bucket) :
    (statementsIn (site.withTexts new) b).Pairwise fun s t =>
      ∀ id ∈ s.references, ∀ offset,
        Callback.declaredIn? (CompilationUnit.ofString text).source parameters block id =
          some offset → offset < t.start := by
  have belongs := h.belongs clean
  have isBlock := (callbackParts_eq_ok h.parts).2
  have sublist := h.statementsIn_sublist new b
  have ordered : ((Callback.leafSlots (CompilationUnit.ofString text).source site.parameters
      (scopeOf (CompilationUnit.ofString text) parameters block) block).map fun s =>
        (s.start, s.stop, (scopeOf (CompilationUnit.ofString text) parameters block).referencesIn
          s.start s.stop)).Pairwise fun x y => ∀ id ∈ x.2.2, ∀ offset,
        Callback.declaredIn? (CompilationUnit.ofString text).source parameters block id =
          some offset → offset < y.1 := by
    rw [List.pairwise_map]
    apply (Callback.leafSlots_spans belongs).2.imp_of_mem
    intro s t hs ht order id hid offset declared
    obtain ⟨o, ho, _, upper, same⟩ := Callback.mem_referencesIn.1 hid
    subst same
    exact Callback.declared_before (Callback.divided_leafSlot isBlock belongs ht) ho
      (Nat.lt_of_lt_of_le upper order) declared
  exact List.pairwise_map.1 (ordered.sublist sublist)

/-- A site that is converted without a warning, whatever texts its statements have been given: a
statement that mentions a parameter of the callback is in the method that has this parameter, and a
statement in the same method that declares what it mentions is the statement itself or comes before
it. -/
theorem attempt_keeps_references (settings : Settings) (file text : String)
    (new : Statement → String) :
    let u := CompilationUnit.ofString text
    u.hasSyntaxErrors = false → ∀ call parameters block site,
      IsSite u file call parameters block site → ∀ outcome replacement,
        (site.withTexts new).attempt settings = .ok outcome →
        outcome.result = .ok replacement → replacement.notes = [] →
          ∃ bodies, (site.withTexts new).bodies replacement.buckets = .ok bodies ∧
            ∀ b earlier s later, bodies b = earlier ++ s :: later → ∀ id ∈ s.references,
              (∃ parameter ∈ [site.parameters.value, site.parameters.error],
                parameter.id = id ∧ site.owns b parameter = true) ∨
              ∃ offset, Callback.declaredIn? u.source parameters block id = some offset ∧
                ∀ t ∈ bodies b, t.start ≤ offset → offset < t.stop → t ∈ earlier ++ [s] := by
  intro u clean call parameters block site isSite outcome replacement attempted converted quiet
  have covered : (site.withTexts new).arena.Covers (site.withTexts new).body :=
    covers_withTexts isSite.covers
  obtain ⟨bodies, notes⟩ := exists_of_attempt covered attempted converted
  refine ⟨_, bodies, ?_⟩
  intro b earlier s later split id hid
  have hs : s ∈ statementsIn (site.withTexts new) b := by
    rw [split]
    exact List.mem_append_right _ List.mem_cons_self
  have quiet : (site.withTexts new).scopeNotes b (statementsIn (site.withTexts new) b) = [] := by
    rw [notes] at quiet
    exact List.flatMap_eq_nil_iff.1 quiet b b.mem_all
  obtain ⟨slot, _, extent⟩ := List.mem_map.1
    ((isSite.statementsIn_sublist new b).subset (List.mem_map_of_mem hs))
  have references : s.references = (scopeOf u parameters block).referencesIn slot.start slot.stop :=
    (congrArg (fun e : Nat × Nat × List Nat => e.2.2) extent).symm
  obtain ⟨o, ho, _, _, same⟩ := Callback.mem_referencesIn.1 (references ▸ hid)
  have denoted : (0 < id ∧ id ≤ parameters.length) ∨
      (Callback.declaredIn? u.source parameters block id).isSome := by
    rw [← same]
    exact Callback.parameter_or_declared ho
  rcases denoted with isParameter | isLocal
  · apply Or.inl
    obtain ⟨parameter, hp, number⟩ := isSite.exists_parameter isParameter.1 isParameter.2
    exact ⟨parameter, hp, number, owns_of_scopeNotes quiet hs hp (number ▸ hid)⟩
  · apply Or.inr
    obtain ⟨offset, declared⟩ := Option.isSome_iff_exists.1 isLocal
    refine ⟨offset, declared, ?_⟩
    intro t ht begins _
    have ordered := isSite.statementsIn_pairwise clean new b
    rw [split] at ht ordered
    rcases List.mem_append.1 ht with ht | ht
    · exact List.mem_append_left _ ht
    · rcases List.mem_cons.1 ht with rfl | ht
      · exact List.mem_append_right _ (List.mem_singleton_self t)
      · have after := (List.pairwise_cons.1 (List.pairwise_append.1 ordered).2.1).1 t ht id hid
          offset declared
        omega

/-! ### A local variable apart from its uses -/

/-- A callback with a local variable that mentions no parameter, and one that does. -/
def separatedText : String :=
  "import reactor.core.publisher.*;class C\x7b\x7bm.doAfterSuccessOrError((A v,B e)->" ++
    "\x7bint x=1;int y=v;g(v,x,y);\x7d);\x7d\x7d"

/-- What the conversion of the call in the text goes by. -/
def separatedFacts (u : CompilationUnit) (call : Cursor)
    (parameters : List (String × Option String)) (block : Node) : Bool :=
  let r := scopeOf u parameters block
  decide ((Callback.slotsOf u.source r block).map (fun s => (s.start, s.stop)) =
      [(77, 85), (85, 93), (93, 102)]) &&
    (Callback.slotsOf u.source r block).all (fun s => !s.isGuard r) &&
    decide (r.occurrences.map (fun o => (o.offset, o.binding.id)) =
      [(99, 4), (97, 3), (95, 1), (91, 1)]) &&
    decide (Callback.declaredIn? u.source parameters block 3 = some 81) &&
    (siteOf u "C.java" call parameters block).elementType.isOk

set_option maxRecDepth 100000 in
theorem read_separatedText :
    let u := CompilationUnit.ofString separatedText
    u.hasSyntaxErrors = false ∧
      ((eligibleCalls u).any fun call =>
        (callbackParts u.source (callbackOf call.node)).toOption.any fun parts =>
          separatedFacts u call parts.1 parts.2) = true := by
  rw [CompilationUnit.ofString_eq_ofCharsOf]
  decide +kernel

theorem exists_separated_site :
    let u := CompilationUnit.ofString separatedText
    ∃ call parameters block site outcome replacement,
      IsSite u "C.java" call parameters block site ∧ site.attempt default = .ok outcome ∧
      outcome.result = .ok replacement ∧ replacement.notes = [] ∧
      Callback.declaredIn? u.source parameters block 3 = some 81 ∧
      ∃ first second third : Statement, first.start = 77 ∧ first.stop = 85 ∧ second.start = 85 ∧
        third.start = 93 ∧ 3 ∈ third.references ∧ statementsIn site .value = [second, third] ∧
        statementsIn site .termination = [first] := by
  intro u
  obtain ⟨call, eligible, found⟩ := List.any_eq_true.1 read_separatedText.2
  cases parts : callbackParts u.source (callbackOf call.node) with
  | error reason =>
    rw [parts] at found
    cases found
  | ok pair =>
    obtain ⟨parameters, block⟩ := pair
    rw [parts] at found
    have facts : separatedFacts u call parameters block = true := found
    simp only [separatedFacts, Bool.and_eq_true, decide_eq_true_eq, List.all_eq_true,
      Bool.not_eq_true'] at facts
    obtain ⟨⟨⟨⟨spans, plain⟩, occurrences⟩, declared⟩, known⟩ := facts
    have entries : Callback.entriesOf u.source (scopeOf u parameters block) block =
        [.plain 77 85, .plain 85 93, .plain 93 102] := by
      have entries := congrArg (List.map fun x : Nat × Nat => Callback.Entry.plain x.1 x.2) spans
      rw [List.map_map] at entries
      exact (Callback.entriesOf_plain plain).trans entries
    generalize hs : siteOf u "C.java" call parameters block = site at known
    let statement (start stop : Nat) : Statement :=
      Callback.statementAt u.source (scopeOf u parameters block) start stop none
    have arena : site.arena = ⟨[statement 77 85, statement 85 93, statement 93 102]⟩ := by
      rw [← hs, siteOf]
      dsimp only
      rw [entries]
      rfl
    have body : site.body = [0, 1, 2] := by
      rw [← hs, siteOf]
      dsimp only
      rw [entries]
      rfl
    have value : site.parameters.value.id = 1 := by
      rw [← hs]
      exact id_parameterAt parameters 0
    have error : site.parameters.error.id = 2 := by
      rw [← hs]
      exact id_parameterAt parameters 1
    have uses (start stop : Nat) := Callback.uses_statementAt occurrences u.source start stop none
    have assigned : Callback.assigned site.parameters site.arena site.body =
        [(.termination, 0), (.value, 1), (.value, 2)] := by
      rw [arena, body, Callback.assigned, List.flatMap_cons, List.flatMap_cons, List.flatMap_cons,
        List.flatMap_nil, Callback.assignedAt_plain (s := statement 77 85) rfl rfl,
        Callback.assignedAt_plain (s := statement 85 93) rfl rfl,
        Callback.assignedAt_plain (s := statement 93 102) rfl rfl]
      simp [Callback.Parameters.bucketOf, statement, uses, value, error]
    have first : statementsIn site .termination = [statement 77 85] := by
      rw [statementsIn, assigned, arena]
      rfl
    have second : statementsIn site .value = [statement 85 93, statement 93 102] := by
      rw [statementsIn, assigned, arena]
      rfl
    have third : statementsIn site .error = [] := by
      rw [statementsIn, assigned, arena]
      rfl
    have isSite : IsSite u "C.java" call parameters block site := ⟨eligible, parts, hs.symm⟩
    obtain ⟨outcome, replacement, attempted, converted⟩ :=
      @exists_attempt site default isSite.covers known
    refine ⟨call, parameters, block, site, outcome, replacement, isSite, attempted, converted, ?_,
      declared, statement 77 85, statement 85 93, statement 93 102, rfl, rfl, rfl, rfl, ?_, second,
      first⟩
    · rw [(exists_of_attempt isSite.covers attempted converted).2]
      apply List.flatMap_eq_nil_iff.2
      intro b _
      cases b with
      | value =>
        simp [second, CallSite.scopeNotes, CallSite.owns, CallSite.ownParameter?, Callback.Binding.same,
          statement, uses, value, error]
      | error => simp [third, CallSite.scopeNotes]
      | termination => simp [first, CallSite.scopeNotes, statement, uses]
    · apply List.contains_iff_mem.1
      exact (uses 93 102 ⟨3, "", none⟩).trans rfl

/-- A local variable may be declared in one method and used in another, without a warning. -/
theorem attempt_separates_local :
    let u := CompilationUnit.ofString separatedText
    u.hasSyntaxErrors = false ∧ ∃ call parameters block site outcome replacement bodies,
      IsSite u "C.java" call parameters block site ∧ site.attempt default = .ok outcome ∧
      outcome.result = .ok replacement ∧ replacement.notes = [] ∧
      site.bodies replacement.buckets = .ok bodies ∧
      ∃ s ∈ bodies .value, ∃ t ∈ bodies .termination, ∃ id ∈ s.references, ∃ offset,
        Callback.declaredIn? u.source parameters block id = some offset ∧
        (t.start ≤ offset ∧ offset < t.stop) ∧
        ∀ t ∈ bodies .value, ¬ (t.start ≤ offset ∧ offset < t.stop) := by
  intro u
  have clean : u.hasSyntaxErrors = false := read_separatedText.1
  obtain ⟨call, parameters, block, site, outcome, replacement, isSite, attempted, converted, quiet,
    declared, first, second, third, begins, ends, secondBegins, thirdBegins, mentioned, value,
    termination⟩ := exists_separated_site
  obtain ⟨bodies, _⟩ := exists_of_attempt isSite.covers attempted converted
  refine ⟨clean, call, parameters, block, site, outcome, replacement, _, isSite, attempted,
    converted, quiet, bodies, third, ?_, first, ?_, 3, mentioned, 81, declared, by omega, ?_⟩
  · simp [value]
  · simp [termination]
  · intro t ht
    rw [value] at ht
    rcases List.mem_cons.1 ht with rfl | ht
    · omega
    · cases List.mem_singleton.1 ht
      omega

theorem attempt_keeps_references_of_separated :
    let u := CompilationUnit.ofString separatedText
    u.hasSyntaxErrors = false ∧ ∃ call parameters block site outcome replacement,
      IsSite u "C.java" call parameters block site ∧
      (site.withTexts Statement.text).attempt default = .ok outcome ∧
      outcome.result = .ok replacement ∧ replacement.notes = [] ∧
      ∃ bodies, (site.withTexts Statement.text).bodies replacement.buckets = .ok bodies ∧
        ∀ b earlier s later, bodies b = earlier ++ s :: later → ∀ id ∈ s.references,
          (∃ parameter ∈ [site.parameters.value, site.parameters.error],
            parameter.id = id ∧ site.owns b parameter = true) ∨
          ∃ offset, Callback.declaredIn? u.source parameters block id = some offset ∧
            ∀ t ∈ bodies b, t.start ≤ offset → offset < t.stop → t ∈ earlier ++ [s] := by
  intro u
  have clean : u.hasSyntaxErrors = false := read_separatedText.1
  obtain ⟨call, parameters, block, site, outcome, replacement, isSite, attempted, converted, quiet,
    _⟩ := exists_separated_site
  rw [← withTexts_text site] at attempted
  exact ⟨clean, call, parameters, block, site, outcome, replacement, isSite, attempted, converted,
    quiet, attempt_keeps_references default "C.java" separatedText Statement.text clean call
      parameters block site isSite outcome replacement attempted converted quiet⟩

end MonoTap

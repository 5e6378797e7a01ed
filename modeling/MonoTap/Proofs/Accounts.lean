import MonoTap.Proofs.Repetition

/-!
# Accounts of calls

A conversion has one outcome for each eligible call, and it changes the text exactly if one of them is a
replacement. That the text changes is not a matter of its length: a replacement may be shorter than what
it replaces, and inserted imports may make up for that. But the name of the method has the letter `A`,
and the imports do not. So after an insertion the first such letter stands further back than before.
-/

set_option autoImplicit false

namespace MonoTap

open Java (CompilationUnit Cursor)
open Text (Edit Source Spliced encode encodeChars inOrder)

/-! ### The first letter A -/

namespace Text

theorem encode_append (s t : String) : encode (s ++ t) = encode s ++ encode t := by
  rw [encode_eq, encode_eq, encode_eq, String.toList_append, encodeChars_append]

/-- The number of bytes before the first letter `A`. -/
def lead (bytes : List UInt8) : Nat :=
  (bytes.takeWhile (· != 65)).length

theorem lead_append_of_notMem {front : List UInt8} (none : 65 ∉ front) (back : List UInt8) :
    lead (front ++ back) = front.length + lead back := by
  have all : ∀ b ∈ front, (b != 65) = true := fun b hb => bne_iff_ne.2 fun same => none (same ▸ hb)
  rw [lead, List.takeWhile_append_of_pos all, List.length_append, lead]

theorem lead_append_of_mem {front : List UInt8} (some : 65 ∈ front) (back : List UInt8) :
    lead (front ++ back) = lead front := by
  induction front with
  | nil => cases some
  | cons b front ih =>
    rw [List.cons_append, lead, lead, List.takeWhile_cons, List.takeWhile_cons]
    by_cases here : b = 65
    · rw [here, if_neg (by decide), if_neg (by decide)]
    · rw [if_pos (bne_iff_ne.2 here), if_pos (bne_iff_ne.2 here), List.length_cons, List.length_cons]
      have further := ih ((List.mem_cons.1 some).resolve_left (Ne.symm here))
      rw [lead, lead] at further
      omega

/-- An edit that inserts bytes, more than two and without the letter. -/
structure Edit.Pads (e : Edit) : Prop where
  inserts : e.stop = e.start
  lacks : (65 : UInt8) ∉ encode e.replacement
  long : 2 < (encode e.replacement).length

/-- An edit that puts another word for one that begins with `doA`. -/
structure Edit.Renames (bytes : List UInt8) (e : Edit) : Prop where
  before : [100, 111, 65] <+: bytes.drop e.start.toNat
  after : (encode e.replacement).head? = some 116

variable {origin : Nat} {bytes old new : List UInt8} {es : List Edit}

/-- After edits the first letter stands at most two bytes further ahead. -/
theorem Spliced.lead_le (h : Spliced origin es old new) (here : bytes.drop origin = old)
    (kinds : ∀ e ∈ es, e.Pads ∨ e.Renames bytes) : lead old ≤ lead new + 2 := by
  induction h with
  | rest origin bytes => omega
  | @edit origin e es kept old rest result start stop more ih =>
    have there : bytes.drop e.start.toNat = old ++ rest := by
      rw [start, Int.toNat_natCast, ← List.drop_drop, here, List.drop_left]
    have further : bytes.drop (origin + kept.length + old.length) = rest := by
      rw [← List.drop_drop, ← List.drop_drop, here, List.drop_left, List.drop_left]
    have left := ih further fun f hf => kinds f (List.mem_cons_of_mem e hf)
    by_cases letter : (65 : UInt8) ∈ kept
    · rw [lead_append_of_mem letter, lead_append_of_mem letter]
      omega
    · rw [lead_append_of_notMem letter, lead_append_of_notMem letter]
      rcases kinds e List.mem_cons_self with pads | renames
      · have none : old = [] := by
          have := pads.inserts
          exact List.length_eq_zero_iff.1 (by omega)
        rw [none, List.nil_append, lead_append_of_notMem pads.lacks]
        omega
      · obtain ⟨back, split⟩ := renames.before
        rw [there] at split
        rw [← split, lead_append_of_mem (by decide)]
        show _ + 2 ≤ _
        omega

/-- Edits, if there are any, make another text. -/
theorem Spliced.ne_of_ne_nil (h : Spliced 0 es bytes new) (some : es ≠ [])
    (kinds : ∀ e ∈ es, e.Pads ∨ e.Renames bytes) : new ≠ bytes := by
  cases h with
  | rest => exact absurd rfl some
  | @edit _ e es kept old rest result start stop more =>
    intro same
    have same : encode e.replacement ++ result = old ++ rest := List.append_cancel_left same
    have further : (kept ++ (old ++ rest)).drop (0 + kept.length + old.length) = rest := by
      rw [Nat.zero_add, ← List.drop_drop, List.drop_left, List.drop_left]
    have left := more.lead_le further fun f hf => kinds f (List.mem_cons_of_mem e hf)
    rcases kinds e List.mem_cons_self with pads | renames
    · have none : old = [] := by
        have := pads.inserts
        exact List.length_eq_zero_iff.1 (by omega)
      rw [none, List.nil_append] at same
      rw [← same, lead_append_of_notMem pads.lacks] at left
      have := pads.long
      omega
    · obtain ⟨back, split⟩ := renames.before
      rw [start, Int.toNat_natCast, Nat.zero_add, List.drop_left] at split
      have first := renames.after
      obtain ⟨b, bs, word⟩ := List.exists_cons_of_ne_nil (l := encode e.replacement)
        fun none => by rw [none] at first; cases first
      rw [word, List.head?_cons] at first
      rw [word, ← split, Option.some.inj first] at same
      exact absurd (List.cons.inj same).1 (by decide)

end Text

/-! ### Which edits a conversion makes -/

theorem Listener.head?_render (layout : Layout) (names : Names)
    (bodies : Callback.Bucket → List StatementText) :
    (encode (render layout names bodies)).head? = some 116 := by
  have opened : ∃ more, (render layout names bodies).toList = 't' :: more := by
    rw [render, String.toList_ofList, callLines, List.cons_append]
    cases membersLines layout names bodies layout.order <;> exact ⟨_, rfl⟩
  obtain ⟨more, opened⟩ := opened
  rw [Text.encode_eq, opened]
  rfl

section

variable {settings : Settings} {file text : String} {ts : List Turn} {done : Progress}
  (course : Course settings file text ts done)
  (clean : (CompilationUnit.ofString text).hasSyntaxErrors = false)
include course

/-- The insertions have no letter `A`. -/
theorem Course.pads {e : Edit} (he : e ∈ insertions (CompilationUnit.ofString text) done) :
    e.Pads := by
  unfold insertions at he
  split at he
  · cases he
  · obtain ⟨offset, inserted, rfl, _⟩ := Imports.mem_edits he
    have line : (65 : UInt8) ∉
        encode (Text.newlineOf (CompilationUnit.ofString text).source.toBytes) := by
      rcases newlineOf_cases (CompilationUnit.ofString text).source.toBytes with same | same
      all_goals
        rw [same]
        decide
    have declared : ∀ name ∈ listenerImports, (65 : UInt8) ∉ encode (Imports.declarationOf name) ∧
        2 < (encode (Imports.declarationOf name)).length := by decide
    have pads := Imports.of_mem_edits
      (P := fun s => (65 : UInt8) ∉ encode s ∧ 2 < (encode s).length) he
      (fun name hn => declared name ((course.run.pending hn).resolve_left fun h => by cases h))
      (fun s own => by
        rw [Text.encode_append, List.mem_append, not_or, List.length_append]
        exact ⟨⟨line, own.1⟩, Nat.lt_of_lt_of_le own.2 (Nat.le_add_left _ _)⟩)
      (fun s own => by
        rw [Text.encode_append, List.mem_append, not_or, List.length_append]
        exact ⟨⟨own.1, line⟩, Nat.lt_of_lt_of_le own.2 (Nat.le_add_right _ _)⟩)
      (fun s t own other => by
        rw [Text.encode_append, List.mem_append, not_or, List.length_append]
        exact ⟨⟨own.1, other.1⟩, Nat.lt_of_lt_of_le own.2 (Nat.le_add_right _ _)⟩)
    exact ⟨rfl, pads.1, pads.2⟩

include clean

/-- The other edits put a listener call for a call of the method. -/
theorem Course.renames {e : Edit} (he : e ∈ done.edits) : e.Renames (encode text) := by
  have mem := (mem_topmost.1 (course.after ▸ he)).1
  obtain ⟨call, eligible, start, _⟩ := course.exists_call mem
  obtain ⟨front, back, split, offset⟩ :=
    (Text.mem_occurrences methodWord_ne_nil).1 (exists_mention clean eligible).1
  constructor
  · have word : [100, 111, 65] <+: encodeChars methodWord := by decide
    rw [start, Int.toNat_natCast, offset, Nat.zero_add, Text.encode_eq, split,
      Text.encodeChars_append, List.drop_left, Text.encodeChars_append]
    exact word.trans (List.prefix_append _ _)
  · obtain ⟨t, ht, edit⟩ := List.mem_filterMap.1 mem
    obtain ⟨_, _, pieces, makes⟩ := (course.settled t ht).exists_pieces edit
    obtain ⟨_, replacement, _, result, rendered⟩ := makes.result
    obtain ⟨r, same, rfl⟩ := Turn.edit?_eq_some_iff.1 edit
    cases result.symm.trans same
    show (encode replacement.text).head? = _
    rw [rendered]
    exact Listener.head?_render _ _ _

/-- A conversion changes the text exactly if it replaces a call. -/
theorem Course.text_eq_iff {conversion : Conversion}
    (converted : convert settings file text = .ok conversion) :
    conversion.text = text ↔ replacements ts = [] := by
  have spliced := course.spliced conversion converted
  constructor
  · intro same
    by_contra some
    obtain ⟨e, he⟩ := List.exists_mem_of_ne_nil _ some
    obtain ⟨f, hf, _⟩ := exists_topmost (fun _ => course.wide) course.precedes he
    rw [← course.after] at hf
    refine spliced.ne_of_ne_nil (fun none => ?_) (fun g hg => ?_) (congrArg encode same)
    · have inside := Text.mem_inOrder.2 (List.mem_append_right
        (insertions (CompilationUnit.ofString text) done) hf)
      rw [none] at inside
      cases inside
    · exact (List.mem_append.1 (Text.mem_inOrder.1 hg)).imp course.pads (course.renames clean)
  · intro none
    have edits : done.edits = [] := by rw [course.after, none]; rfl
    have inserted : insertions (CompilationUnit.ofString text) done = [] := by
      rw [insertions, edits]
      rfl
    rw [edits, inserted, List.append_nil, Text.inOrder_nil] at spliced
    exact Text.encode_injective spliced.eq_of_nil

end

/-! ### One outcome for each call -/

/-- What is said of a call: what became of its site when its turn came, or why it is no site. -/
def AccountsFor (u : CompilationUnit) (file : String) (ts : List Turn) (call : Cursor)
    (outcome : Outcome) : Prop :=
  outcome.line = callLine u.source call.node ∧
    match siteOrOutcome u file call with
    | .inr unsupported => outcome = unsupported
    | .inl site => ∃ t ∈ ts, t.site = site ∧ t.outcome = outcome

theorem line_of_embedEdits {source : List UInt8} {edits : List Edit} {site embedded : CallSite}
    (embeds : embedEdits source edits site = .ok embedded) : embedded.line = site.line := by
  rw [embedEdits] at embeds
  cases made : site.arena.statements.mapM
      (embedInStatement source (edits.filter site.encloses)) with
  | error o =>
    rw [made] at embeds
    cases embeds
  | ok statements =>
    rw [made] at embeds
    cases embeds
    rfl

/-- An outcome is reported at the line of its site. -/
theorem Run.line {settings : Settings} {source : List UInt8} {p q : Progress} {ts : List Turn}
    (h : Run settings source p ts q) : ∀ t ∈ ts, t.outcome.line = t.site.line := by
  induction h with
  | done p => exact fun t ht => by cases ht
  | turn embeds settles more ih =>
    intro t ht
    rcases List.mem_cons.1 ht with rfl | ht
    · exact (attempt_eq_ok settles).1.trans (line_of_embedEdits embeds)
    · exact ih t ht

/-- Values of two kinds, with what they came from. -/
theorem perm_of_sum {α β γ : Type} (f : α → β ⊕ γ) (xs : List α) :
    ((xs.filterMap fun x => (f x).getRight?.map (x, ·)).map Prod.fst ++
      (xs.filterMap fun x => (f x).getLeft?.map (x, ·)).map Prod.fst).Perm xs := by
  induction xs with
  | nil => exact .nil
  | cons x xs ih =>
    cases kind : f x with
    | inl b =>
      rw [List.filterMap_cons, List.filterMap_cons, kind]
      exact List.perm_middle.trans (ih.cons x)
    | inr c =>
      rw [List.filterMap_cons, List.filterMap_cons, kind]
      exact ih.cons x

theorem eq_of_mem_zip {α β γ : Type} {f : α → γ} {g : β → γ} {xs : List α} {ys : List β}
    (same : xs.map f = ys.map g) {p : α × β} (h : p ∈ xs.zip ys) : f p.1 = g p.2 := by
  induction xs generalizing ys with
  | nil => cases h
  | cons x xs ih =>
    cases ys with
    | nil => cases h
    | cons y ys =>
      obtain ⟨first, rest⟩ := List.cons.inj same
      rcases List.mem_cons.1 h with rfl | h
      · exact first
      · exact ih rest h

/-- A call and its site are on one line, and so are a call that is no site and what is said of it. -/
theorem line_of_siteOrOutcome {u : CompilationUnit} {file : String} {call : Cursor}
    (eligible : call ∈ eligibleCalls u) :
    (∀ site, siteOrOutcome u file call = .inl site → site.line = callLine u.source call.node) ∧
    ∀ outcome, siteOrOutcome u file call = .inr outcome →
      outcome.line = callLine u.source call.node := by
  rw [siteOrOutcome]
  cases made : CallSite.ofCall u file call with
  | ok site =>
    obtain ⟨_, _, isSite⟩ := ofCall_eq_ok eligible made
    refine ⟨fun _ same => ?_, fun _ same => by cases same⟩
    cases same
    rw [isSite.same]
    rfl
  | error reason =>
    refine ⟨fun _ same => (by cases same), fun _ same => ?_⟩
    cases same
    rfl

theorem byLine_pairwise (outcomes : List Outcome) :
    (byLine outcomes).Pairwise fun a b => a.line ≤ b.line := by
  refine (@List.pairwise_mergeSort Outcome (fun a b => decide (a.line ≤ b.line))
    (fun a b c first second => ?_) (fun a b => ?_) outcomes).imp fun h => of_decide_eq_true h
  · simp only [decide_eq_true_eq] at first second ⊢
    omega
  · simp only [Bool.or_eq_true, decide_eq_true_eq]
    omega

section

variable {settings : Settings} {file text : String} {ts : List Turn} {done : Progress}
  (course : Course settings file text ts done)
include course

/-- Each eligible call has one outcome. -/
theorem Course.exists_accounts : ∃ accounts : List (Cursor × Outcome),
    accounts.map Prod.snd =
      (callSites (CompilationUnit.ofString text) file).2 ++ ts.map Turn.outcome ∧
    (accounts.map Prod.fst).Perm (eligibleCalls (CompilationUnit.ofString text)) ∧
    ∀ a ∈ accounts, AccountsFor (CompilationUnit.ofString text) file ts a.1 a.2 := by
  generalize unit : CompilationUnit.ofString text = u
  let unsupported := (eligibleCalls u).filterMap fun call =>
    (siteOrOutcome u file call).getRight?.map (call, ·)
  let sites := (eligibleCalls u).filterMap fun call =>
    (siteOrOutcome u file call).getLeft?.map (call, ·)
  -- The calls with sites in the order of the turns.
  let sorted := sites.mergeSort fun a b => decide (a.2.stop - a.2.start ≤ b.2.stop - b.2.start)
  have others : unsupported.map Prod.snd = (callSites u file).2 := by
    rw [List.map_filterMap]
    simp only [Option.map_map, Function.comp_def, Option.map_id']
    show _ = ((eligibleCalls u).map (siteOrOutcome u file)).filterMap Sum.getRight?
    rw [List.filterMap_map]
    rfl
  have turns : sorted.map Prod.snd = ts.map Turn.site := by
    have found : sites.map Prod.snd = (callSites u file).1 := by
      rw [List.map_filterMap]
      simp only [Option.map_map, Function.comp_def, Option.map_id']
      show _ = ((eligibleCalls u).map (siteOrOutcome u file)).filterMap Sum.getLeft?
      rw [List.filterMap_map]
      rfl
    rw [course.sites, unit, innermostFirst, ← found, List.map_mergeSort]
    exact fun _ _ _ _ => rfl
  have sizes : sorted.length = ts.length := by
    rw [← List.length_map (f := Prod.snd), turns, List.length_map]
  refine ⟨unsupported ++ (sorted.zip ts).map fun p => (p.1.1, p.2.outcome), ?_, ?_, ?_⟩
  · have last : (sorted.zip ts).map Prod.snd = ts := List.map_snd_zip (Nat.le_of_eq sizes.symm)
    rw [List.map_append, others, List.map_map]
    conv_rhs => rw [← last, List.map_map]
    rfl
  · have first : (sorted.zip ts).map Prod.fst = sorted := List.map_fst_zip (Nat.le_of_eq sizes)
    have calls : ((sorted.zip ts).map fun p => (p.1.1, p.2.outcome)).map Prod.fst =
        sorted.map Prod.fst := by
      conv_rhs => rw [← first, List.map_map]
      rw [List.map_map]
      rfl
    have all := perm_of_sum (siteOrOutcome u file) (eligibleCalls u)
    rw [List.map_append, calls]
    exact (((List.mergeSort_perm sites _).map Prod.fst).append_left _).trans all
  · intro a ha
    rcases List.mem_append.1 ha with ha | ha
    · obtain ⟨call, eligible, made⟩ := List.mem_filterMap.1 ha
      obtain ⟨o, found, rfl⟩ := Option.map_eq_some_iff.1 made
      have found := Sum.getRight?_eq_some_iff.1 found
      refine ⟨(line_of_siteOrOutcome eligible).2 o found, ?_⟩
      rw [found]
    · obtain ⟨⟨⟨call, site⟩, t⟩, mem, rfl⟩ := List.mem_map.1 ha
      have same : site = t.site := eq_of_mem_zip turns mem
      have ht := (List.of_mem_zip mem).2
      obtain ⟨_, eligible, made⟩ := List.mem_filterMap.1
        (List.mem_mergeSort.1 (List.of_mem_zip mem).1)
      obtain ⟨s, found, pair⟩ := Option.map_eq_some_iff.1 made
      cases pair
      have found := Sum.getLeft?_eq_some_iff.1 found
      refine ⟨?_, ?_⟩
      · rw [course.run.line t ht, ← same, (line_of_siteOrOutcome eligible).1 site found]
      · rw [found]
        exact ⟨t, ht, same.symm, rfl⟩

/-- The outcomes of a conversion, each with its call. -/
theorem Course.exists_accounts_of_convert {conversion : Conversion}
    (converted : convert settings file text = .ok conversion) :
    ∃ accounts : List (Cursor × Outcome), accounts.map Prod.snd = conversion.outcomes ∧
      (accounts.map Prod.fst).Perm (eligibleCalls (CompilationUnit.ofString text)) ∧
      ∀ a ∈ accounts, AccountsFor (CompilationUnit.ofString text) file ts a.1 a.2 := by
  obtain ⟨accounts, outcomes, calls, each⟩ := course.exists_accounts
  refine ⟨accounts.mergeSort fun a b => decide (a.2.line ≤ b.2.line), ?_, ?_, fun a ha => ?_⟩
  · rw [course.outcomes conversion converted, byLine, ← outcomes, List.map_mergeSort]
    exact fun _ _ _ _ => rfl
  · exact ((List.mergeSort_perm accounts _).map Prod.fst).trans calls
  · exact each a (List.mem_mergeSort.1 ha)

theorem Course.outcomes_pairwise {conversion : Conversion}
    (converted : convert settings file text = .ok conversion) :
    conversion.outcomes.Pairwise fun a b => a.line ≤ b.line := by
  rw [course.outcomes conversion converted]
  exact byLine_pairwise _

variable (clean : (CompilationUnit.ofString text).hasSyntaxErrors = false)
include clean

/-- A conversion changes the text exactly if it has an outcome that is a replacement. -/
theorem Course.changed_iff {conversion : Conversion}
    (converted : convert settings file text = .ok conversion) :
    conversion.changed = true ↔ ∃ o ∈ conversion.outcomes, o.converted = true := by
  have before : conversion.before = text := (names_of_convert converted).2
  rw [Conversion.changed, bne_iff_ne, before, ne_eq, course.text_eq_iff clean converted,
    ← List.length_eq_zero_iff, ← course.convertedCount_eq converted, Conversion.convertedCount,
    List.length_eq_zero_iff, List.filter_eq_nil_iff]
  simp only [not_forall, Classical.not_not, exists_prop]

end

theorem exists_convert_importedText :
    let u := CompilationUnit.ofString importedText
    u.hasSyntaxErrors = false ∧ (eligibleCalls u).length = 1 ∧
      ∃ conversion, convert default "src/C.java" importedText = .ok conversion ∧
        conversion.convertedCount = 1 := by
  intro u
  obtain ⟨clean, declared, one, facts⟩ := read_importedText
  have facts := facts "src/C.java" (List.mem_cons_of_mem _ List.mem_cons_self)
  have each {site : CallSite} (hsite : site ∈ (callSites u "src/C.java").1) :
      (∃ elementType, site.elementType = .ok elementType) ∧
      ∀ d ∈ u.root.namedChildren, isDeclaration d = true → d.stop < site.stop := by
    have here := List.mem_singleton.1 (facts ▸ List.mem_map_of_mem hsite)
    rw [Prod.mk.injEq] at here
    obtain ⟨known, outside⟩ := here
    refine ⟨?_, fun d hd declares => ?_⟩
    · cases found : site.elementType with
      | ok elementType => exact ⟨elementType, rfl⟩
      | error reason =>
        rw [found] at known
        cases known
    · have after := List.all_eq_true.1 outside d hd
      rwa [declares, Bool.not_true, Bool.false_or, decide_eq_true_eq] at after
  obtain ⟨ts, done, course⟩ := exists_course clean default "src/C.java"
  obtain ⟨conversion, converted⟩ := course.exists_of_sites_outside clean declared
    fun site hsite => (each hsite).2
  refine ⟨clean, one, conversion, converted, ?_⟩
  rw [course.convertedCount_eq_length converted fun site hsite => (each hsite).1,
    ← List.length_map, facts]
  rfl

theorem Conversion.exists_converted {r : Conversion} (h : 0 < r.convertedCount) :
    ∃ o ∈ r.outcomes, o.converted = true := by
  obtain ⟨o, ho⟩ := List.exists_mem_of_length_pos h
  exact ⟨o, (List.mem_filter.1 ho).1, (List.mem_filter.1 ho).2⟩

end MonoTap

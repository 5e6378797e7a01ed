import MonoTap.Proofs.Endings
import MonoTap.Proofs.Utf8
import MonoTap.Text.Edit

/-!
# Splicing edits

What a text becomes by edits that do not overlap: their ranges are replaced and every other byte
stays, in order. Edits can be made exactly if, in the order of their starts, each one begins where
the one before it has ended or later.
-/

set_option autoImplicit false

namespace MonoTap.Text

/-- Bytes that begin at the offset `origin`, and what becomes of them when the ranges of some edits
are replaced and all other bytes are kept. -/
inductive Spliced : Nat → List Edit → List UInt8 → List UInt8 → Prop
  | rest (origin : Nat) (bytes : List UInt8) : Spliced origin [] bytes bytes
  | edit {origin : Nat} {e : Edit} {es : List Edit} (kept : List UInt8) {old rest result : List UInt8}
      (start : e.start = (origin + kept.length : Nat))
      (stop : e.stop = (origin + kept.length + old.length : Nat))
      (more : Spliced (origin + kept.length + old.length) es rest result) :
      Spliced origin (e :: es) (kept ++ (old ++ rest)) (kept ++ (encode e.replacement ++ result))

/-- Without edits every byte is kept. -/
theorem Spliced.eq_of_nil {origin : Nat} {bytes result : List UInt8}
    (h : Spliced origin [] bytes result) : result = bytes := by
  cases h
  rfl

/-- An edit of the bytes from `lo` up to `hi`. -/
def Edit.Located (lo hi : Nat) (e : Edit) : Prop :=
  ∃ start stop : Nat, e.start = start ∧ e.stop = stop ∧ lo ≤ start ∧ start ≤ stop ∧ stop ≤ hi

/-- Edits of the bytes from `lo` up to `hi`, each of which begins after the one before it. -/
def InLine (lo hi : Nat) : List Edit → Prop
  | [] => lo ≤ hi
  | e :: es => ∃ start stop : Nat,
      e.start = start ∧ e.stop = stop ∧ lo ≤ start ∧ start ≤ stop ∧ InLine stop hi es

theorem InLine.le {lo hi : Nat} {es : List Edit} (h : InLine lo hi es) : lo ≤ hi := by
  induction es generalizing lo with
  | nil => exact h
  | cons e es ih =>
    obtain ⟨start, stop, _, _, first, second, rest⟩ := h
    have := ih rest
    omega

/-- Of two edits, one ends before the other begins. -/
def Edit.Apart (a b : Edit) : Prop :=
  a.stop ≤ b.start ∨ b.stop ≤ a.start

theorem Edit.Apart.symm {a b : Edit} (h : a.Apart b) : b.Apart a :=
  Or.symm h

theorem inLine_of_pairwise {lo hi : Nat} {es : List Edit} (bounds : lo ≤ hi)
    (located : ∀ e ∈ es, e.Located lo hi)
    (ordered : es.Pairwise fun a b => a.stop ≤ b.start) : InLine lo hi es := by
  induction es generalizing lo with
  | nil => exact bounds
  | cons e es ih =>
    obtain ⟨start, stop, hstart, hstop, lower, width, upper⟩ := located e List.mem_cons_self
    obtain ⟨later, ordered⟩ := List.pairwise_cons.1 ordered
    refine ⟨start, stop, hstart, hstop, lower, width, ih upper ?_ ordered⟩
    intro f hf
    obtain ⟨first, last, hfirst, hlast, _, between, limit⟩ :=
      located f (List.mem_cons_of_mem _ hf)
    have := later f hf
    exact ⟨first, last, hfirst, hlast, by omega, between, limit⟩

/-! ### Making edits -/

/-- Edits in line can be made. -/
theorem splice_eq_ok {bytes : List UInt8} {cursor : Nat} {es : List Edit}
    (inLine : InLine cursor bytes.length es) :
    ∃ result, splice bytes cursor es = .ok result ∧
      Spliced cursor es (bytes.drop cursor) result := by
  induction es generalizing cursor with
  | nil =>
    refine ⟨bytes.drop cursor, ?_, .rest _ _⟩
    rw [splice, beyond_natCast bytes inLine]
  | cons e es ih =>
    obtain ⟨start, stop, hstart, hstop, lower, width, rest⟩ := inLine
    have upper := rest.le
    obtain ⟨result, hresult, spliced⟩ := ih rest
    have notBefore : ¬ e.start < (cursor : Int) := by omega
    have kept : ((bytes.drop cursor).take (start - cursor)).length = start - cursor := by
      rw [List.length_take, List.length_drop]
      omega
    have old : ((bytes.drop start).take (stop - start)).length = stop - start := by
      rw [List.length_take, List.length_drop]
      omega
    have cut : bytes.drop cursor = (bytes.drop cursor).take (start - cursor) ++
        ((bytes.drop start).take (stop - start) ++ bytes.drop stop) := by
      have second : bytes.drop stop = (bytes.drop start).drop (stop - start) := by
        rw [List.drop_drop, Nat.add_sub_cancel' width]
      have first : bytes.drop start = (bytes.drop cursor).drop (start - cursor) := by
        rw [List.drop_drop, Nat.add_sub_cancel' lower]
      rw [second, List.take_append_drop, first, List.take_append_drop]
    refine ⟨(bytes.drop cursor).take (start - cursor) ++ (encode e.replacement ++ result), ?_, ?_⟩
    · rw [splice, if_neg notBefore, hstop, hresult, hstart,
        between_natCast bytes lower (by omega)]
      exact congrArg Except.ok (List.append_assoc _ _ _)
    · conv => arg 3; rw [cut]
      refine .edit _ ?_ ?_ ?_
      · rw [kept, hstart]
        omega
      · rw [kept, old, hstop]
        omega
      · rw [kept, old, show cursor + (start - cursor) + (stop - start) = stop by omega]
        exact spliced

/-- Edits that can be made follow each other. -/
theorem pairwise_of_splice_eq_ok {bytes result : List UInt8} {cursor : Int} {es : List Edit}
    (made : splice bytes cursor es = .ok result) (forwards : ∀ e ∈ es, e.start ≤ e.stop) :
    (∀ e ∈ es, cursor ≤ e.start) ∧ es.Pairwise fun a b => a.stop ≤ b.start := by
  induction es generalizing cursor result with
  | nil => exact ⟨fun e he => (List.not_mem_nil he).elim, .nil⟩
  | cons e es ih =>
    rw [splice] at made
    split at made
    · cases made
    · rename_i notBefore
      cases hrest : splice bytes e.stop es with
      | error o =>
        rw [hrest] at made
        cases made
      | ok rest =>
        obtain ⟨later, ordered⟩ := ih hrest fun f hf => forwards f (List.mem_cons_of_mem _ hf)
        refine ⟨fun f hf => ?_, List.pairwise_cons.2 ⟨later, ordered⟩⟩
        have width := forwards e List.mem_cons_self
        rcases List.mem_cons.1 hf with rfl | hf
        · omega
        · have := later f hf
          omega

/-! ### The order of edits -/

theorem inOrder_nil : inOrder [] = [] := List.mergeSort_nil

theorem inOrder_perm (es : List Edit) : (inOrder es).Perm es :=
  List.mergeSort_perm es _

theorem mem_inOrder {e : Edit} {es : List Edit} : e ∈ inOrder es ↔ e ∈ es :=
  (inOrder_perm es).mem_iff

theorem inOrder_pairwise (es : List Edit) : (inOrder es).Pairwise fun a b => a.start ≤ b.start := by
  have sorted := @List.pairwise_mergeSort Edit (fun a b => decide (a.start ≤ b.start))
    (fun a b c first second => by
      simp only [decide_eq_true_eq] at first second ⊢
      omega)
    (fun a b => by
      simp only [Bool.or_eq_true, decide_eq_true_eq]
      omega) es
  exact sorted.imp fun h => of_decide_eq_true h

/-- Edits with one start keep the order they are given in. -/
theorem filter_inOrder (es : List Edit) (start : Int) :
    (inOrder es).filter (·.start == start) = es.filter (·.start == start) := by
  have stable : (es.filter (·.start == start)).Sublist (inOrder es) := by
    apply List.sublist_mergeSort
    · intro a b c first second
      simp only [decide_eq_true_eq] at first second ⊢
      omega
    · intro a b
      simp only [Bool.or_eq_true, decide_eq_true_eq]
      omega
    · refine List.pairwise_of_forall_mem_list fun a ha b hb => ?_
      have first := (List.mem_filter.1 ha).2
      have second := (List.mem_filter.1 hb).2
      simp only [beq_iff_eq] at first second
      simp only [first, second, Int.le_refl, decide_true]
    · exact List.filter_sublist
  have inside := stable.filter (·.start == start)
  rw [List.filter_filter, List.filter_congr fun e _ => Bool.and_self _] at inside
  exact (inside.eq_of_length ((inOrder_perm es).filter _).length_eq.symm).symm

/-- The order does not depend on where offsets are counted from. -/
theorem inOrder_map_relativeTo (es : List Edit) (origin : Int) :
    inOrder (es.map (·.relativeTo origin)) = (inOrder es).map (·.relativeTo origin) := by
  refine (List.map_mergeSort fun a _ b _ => ?_).symm
  have same : a.start ≤ b.start ↔ a.start - origin ≤ b.start - origin := by omega
  exact decide_eq_decide.2 same

theorem Spliced.of_relativeTo {origin shift : Nat} {es : List Edit} {bytes result : List UInt8}
    (h : Spliced origin (es.map (·.relativeTo shift)) bytes result) :
    Spliced (origin + shift) es bytes result := by
  generalize same : es.map (·.relativeTo shift) = moved at h
  induction h generalizing es with
  | rest origin bytes =>
    cases List.map_eq_nil_iff.1 same
    exact .rest _ _
  | @edit origin m ms kept old rest result start stop more ih =>
    obtain ⟨e, es, rfl, rfl, hrest⟩ := List.map_eq_cons_iff.1 same
    have startAt : e.start - shift = (origin + kept.length : Nat) := start
    have stopAt : e.stop - shift = (origin + kept.length + old.length : Nat) := stop
    refine .edit kept (by omega) (by omega) ?_
    have step : origin + shift + kept.length + old.length =
        origin + kept.length + old.length + shift := by omega
    rw [step]
    exact ih hrest

/-- Edits of some width that are apart follow each other in their order. -/
theorem inLine_inOrder {lo hi : Nat} {es : List Edit} (bounds : lo ≤ hi)
    (located : ∀ e ∈ es, e.Located lo hi) (wide : ∀ e ∈ es, e.start < e.stop)
    (apart : es.Pairwise Edit.Apart) : InLine lo hi (inOrder es) := by
  apply inLine_of_pairwise bounds fun e he => located e (mem_inOrder.1 he)
  have apart := (inOrder_perm es).symm.pairwise apart Edit.Apart.symm
  refine ((inOrder_pairwise es).and apart).imp_of_mem ?_
  intro a b ha hb h
  have wideA := wide a (mem_inOrder.1 ha)
  have wideB := wide b (mem_inOrder.1 hb)
  rcases h.2 with h' | h'
  · exact h'
  · have := h.1
    omega

/-! ### Edits of a part of a text -/

/-- The text between two offsets with edits that are apart. -/
theorem sliceWithEdits_eq_ok {bytes : List UInt8} {start stop : Nat} {es : List Edit}
    (order : start ≤ stop) (size : stop ≤ bytes.length) (wide : ∀ e ∈ es, e.start < e.stop)
    (apart : es.Pairwise Edit.Apart) :
    ∃ result, sliceWithEdits bytes start stop es = .ok (String.ofList (decodeLossy result)) ∧
      Spliced start (inOrder (es.filter (·.within start stop)))
        ((bytes.drop start).take (stop - start)) result := by
  have length : ((bytes.drop start).take (stop - start)).length = stop - start := by
    rw [List.length_take, List.length_drop]
    omega
  have inLine : InLine 0 (stop - start)
      (inOrder ((es.filter (·.within start stop)).map (·.relativeTo start))) := by
    apply inLine_inOrder (Nat.zero_le _)
    · intro m hm
      obtain ⟨e, he, rfl⟩ := List.mem_map.1 hm
      obtain ⟨he, inside⟩ := List.mem_filter.1 he
      have width := wide e he
      simp only [Edit.within, Bool.and_eq_true, decide_eq_true_eq] at inside
      refine ⟨(e.start - start).toNat, (e.stop - start).toNat, ?_, ?_, Nat.zero_le _, by omega,
        by omega⟩
      · show e.start - start = _
        omega
      · show e.stop - start = _
        omega
    · intro m hm
      obtain ⟨e, he, rfl⟩ := List.mem_map.1 hm
      have := wide e (List.mem_filter.1 he).1
      simp only [Edit.relativeTo]
      omega
    · rw [List.pairwise_map]
      refine (apart.filter _).imp fun h => ?_
      simp only [Edit.Apart, Edit.relativeTo] at h ⊢
      omega
  rw [← length] at inLine
  obtain ⟨result, hresult, spliced⟩ := splice_eq_ok inLine
  refine ⟨result, ?_, ?_⟩
  · have made : splice ((bytes.drop start).take (stop - start)) 0
        (inOrder ((es.filter (·.within start stop)).map (·.relativeTo start))) = .ok result :=
      hresult
    rw [sliceWithEdits, between_natCast bytes order size, applyEdits, made]
    rfl
  · rw [inOrder_map_relativeTo, List.drop_zero] at spliced
    have moved := spliced.of_relativeTo
    rwa [Nat.zero_add] at moved

/-! ### Insertions among other edits -/

/-- An edit that begins inside another one. -/
def Edit.Cuts (i e : Edit) : Prop :=
  e.start < i.start ∧ i.start < e.stop

section

variable {lo hi : Nat} {insertions spans : List Edit}

/-- Insertions that cut no other edit can be made together with the others. -/
theorem inLine_inOrder_insertions (bounds : lo ≤ hi)
    (inserting : ∀ i ∈ insertions, i.Located lo hi ∧ i.stop = i.start)
    (located : ∀ e ∈ spans, e.Located lo hi) (wide : ∀ e ∈ spans, e.start < e.stop)
    (apart : spans.Pairwise Edit.Apart) (uncut : ∀ i ∈ insertions, ∀ e ∈ spans, ¬ i.Cuts e) :
    InLine lo hi (inOrder (insertions ++ spans)) := by
  apply inLine_of_pairwise bounds
  · intro e he
    rcases List.mem_append.1 (mem_inOrder.1 he) with h | h
    · exact (inserting e h).1
    · exact located e h
  -- no span comes before an insertion at its own start
  have first : (insertions ++ spans).Pairwise fun a b => a.start < a.stop → b.start < b.stop := by
    refine List.pairwise_append.2 ⟨?_, ?_, fun a _ b hb _ => wide b hb⟩
    · refine List.pairwise_of_forall_mem_list fun a ha b _ h => ?_
      have := (inserting a ha).2
      omega
    · exact List.pairwise_of_forall_mem_list fun a _ b hb _ => wide b hb
  have stable : (inOrder (insertions ++ spans)).Pairwise fun a b =>
      a.start = b.start → a.start < a.stop → b.start < b.stop := by
    rw [List.pairwise_iff_forall_sublist]
    intro a b sub same
    have filtered := sub.filter (·.start == a.start)
    rw [filter_inOrder] at filtered
    have both : [a, b].filter (·.start == a.start) = [a, b] := by simp [same]
    rw [both] at filtered
    exact List.pairwise_iff_forall_sublist.1 first (filtered.trans List.filter_sublist)
  have separate : (insertions ++ spans).Pairwise fun a b =>
      a.start < a.stop → b.start < b.stop → a.Apart b := by
    refine List.pairwise_append.2 ⟨?_, apart.imp fun h _ _ => h, ?_⟩
    · refine List.pairwise_of_forall_mem_list fun a ha b _ h => ?_
      have := (inserting a ha).2
      omega
    · intro a ha b _ h
      have := (inserting a ha).2
      omega
  have separate := (inOrder_perm _).symm.pairwise separate
    fun {a b} h first second => (h second first).symm
  refine (((inOrder_pairwise _).and stable).and separate).imp_of_mem ?_
  rintro a b ha hb ⟨⟨order, stable⟩, separate⟩
  have member (e : Edit) (he : e ∈ inOrder (insertions ++ spans)) :
      (e ∈ insertions ∧ e.stop = e.start) ∨ (e ∈ spans ∧ e.start < e.stop) := by
    rcases List.mem_append.1 (mem_inOrder.1 he) with h | h
    · exact Or.inl ⟨h, (inserting e h).2⟩
    · exact Or.inr ⟨h, wide e h⟩
  rcases member a ha with ⟨_, empty⟩ | ⟨inSpans, wideA⟩
  · omega
  · rcases member b hb with ⟨inInsertions, empty⟩ | ⟨_, wideB⟩
    · have notCut := uncut b inInsertions a inSpans
      by_cases same : a.start = b.start
      · have := stable same wideA
        omega
      · have later : a.start < b.start := by omega
        by_cases inside : b.start < a.stop
        · exact (notCut ⟨later, inside⟩).elim
        · omega
    · rcases separate wideA wideB with h | h
      · exact h
      · omega

/-- Insertions can be made together with other edits exactly if they cut none of them. -/
theorem applyEdits_insertions_iff {bytes : List UInt8}
    (inserting : ∀ i ∈ insertions, i.Located 0 bytes.length ∧ i.stop = i.start)
    (located : ∀ e ∈ spans, e.Located 0 bytes.length) (wide : ∀ e ∈ spans, e.start < e.stop)
    (apart : spans.Pairwise Edit.Apart) :
    (∃ result, applyEdits bytes (insertions ++ spans) = .ok result) ↔
      ∀ i ∈ insertions, ∀ e ∈ spans, ¬ i.Cuts e := by
  constructor
  · rintro ⟨result, made⟩ i hi e he ⟨after, inside⟩
    have forwards : ∀ f ∈ inOrder (insertions ++ spans), f.start ≤ f.stop := by
      intro f hf
      rcases List.mem_append.1 (mem_inOrder.1 hf) with h | h
      · have := (inserting f h).2
        omega
      · have := wide f h
        omega
    have empty := (inserting i hi).2
    have ordered := (pairwise_of_splice_eq_ok made forwards).2
    obtain ⟨before, later, split⟩ :=
      List.append_of_mem (mem_inOrder.2 (List.mem_append_left spans hi))
    have present := mem_inOrder.2 (List.mem_append_right insertions he)
    rw [split] at ordered present
    obtain ⟨_, fromInsertion, across⟩ := List.pairwise_append.1 ordered
    rcases List.mem_append.1 present with h | h
    · have := across e h i List.mem_cons_self
      omega
    · rcases List.mem_cons.1 h with rfl | h
      · omega
      · have := (List.pairwise_cons.1 fromInsertion).1 e h
        omega
  · intro uncut
    have inLine := inLine_inOrder_insertions (Nat.zero_le _) inserting located wide apart uncut
    obtain ⟨result, made, _⟩ := splice_eq_ok inLine
    exact ⟨result, made⟩

end

/-! ### Edits of whole characters -/

/-- An edit that begins and ends between two characters of a text. -/
def Edit.Fits (origin : Nat) (cs : List Char) (e : Edit) : Prop :=
  ∃ start stop : Nat, e.start = start ∧ e.stop = stop ∧ start ≤ stop ∧
    Boundary origin cs start ∧ Boundary origin cs stop

theorem Edit.Fits.located {origin : Nat} {cs : List Char} {e : Edit} (h : e.Fits origin cs) :
    e.Located origin (origin + (encodeChars cs).length) := by
  obtain ⟨start, stop, hstart, hstop, order, first, second⟩ := h
  exact ⟨start, stop, hstart, hstop, first.le.1, order, second.le.2⟩

theorem Spliced.origin_le {origin : Nat} {es : List Edit} {bytes result : List UInt8}
    (h : Spliced origin es bytes result) {e : Edit} (he : e ∈ es) : (origin : Int) ≤ e.start := by
  induction h with
  | rest => exact (List.not_mem_nil he).elim
  | edit kept start stop more ih =>
    rcases List.mem_cons.1 he with rfl | he
    · omega
    · have := ih he
      omega

/-- The first of some edits cuts a text into what stands before it, what it replaces, and the rest, in
which the others are made. -/
theorem Spliced.exists_cut {origin : Nat} {e : Edit} {es : List Edit} {cs : List Char}
    {result : List UInt8} (h : Spliced origin (e :: es) (encodeChars cs) result)
    (fits : ∀ f ∈ e :: es, f.Fits origin cs) :
    ∃ front middle back rest, cs = front ++ (middle ++ back) ∧
      result = encodeChars (front ++ e.replacement.toList) ++ rest ∧
      e.start = (origin + (encodeChars front).length : Nat) ∧
      e.stop = (origin + (encodeChars front).length + (encodeChars middle).length : Nat) ∧
      Spliced (origin + (encodeChars front).length + (encodeChars middle).length) es
        (encodeChars back) rest ∧
      ∀ f ∈ es,
        f.Fits (origin + (encodeChars front).length + (encodeChars middle).length) back := by
  generalize same : encodeChars cs = bytes at h
  cases h with
  | @edit _ _ _ kept old rest result start stop more =>
    obtain ⟨first, second, hfirst, hsecond, order, left, right⟩ := fits e List.mem_cons_self
    obtain ⟨front, middle, back, rfl, atFirst, atSecond⟩ := left.split right order
    rw [encodeChars_append, encodeChars_append] at same
    obtain ⟨sameKept, sameRest⟩ := List.append_inj same (by omega)
    obtain ⟨sameOld, sameMore⟩ := List.append_inj sameRest (by omega)
    subst sameKept sameOld sameMore
    refine ⟨front, middle, back, result, rfl, ?_, start, stop, more, ?_⟩
    · rw [encodeChars_append, encode_eq, List.append_assoc]
    · intro f hf
      obtain ⟨a, b, ha, hb, inner, leftF, rightF⟩ := fits f (List.mem_cons_of_mem _ hf)
      have after := more.origin_le hf
      have leftF := leftF.of_append (by omega)
      have rightF := rightF.of_append (by omega)
      exact ⟨a, b, ha, hb, inner, leftF.of_append (by omega), rightF.of_append (by omega)⟩

/-- Replacing whole characters of a text gives a text. -/
theorem Spliced.exists_chars {origin : Nat} {es : List Edit} {cs : List Char} {result : List UInt8}
    (h : Spliced origin es (encodeChars cs) result) (fits : ∀ e ∈ es, e.Fits origin cs) :
    ∃ ds, result = encodeChars ds := by
  induction es generalizing origin cs result with
  | nil => exact ⟨cs, h.eq_of_nil⟩
  | cons e es ih =>
    obtain ⟨front, middle, back, rest, rfl, rfl, _, _, more, later⟩ := h.exists_cut fits
    obtain ⟨ds, rfl⟩ := ih more later
    exact ⟨front ++ e.replacement.toList ++ ds, (encodeChars_append _ _).symm⟩

/-- Edits that end with lines that are not blank make a text do so, unless they leave it as it is. What
is left of the text after an edit may be the end of the line that the edit ends with. -/
theorem Spliced.endsSolid_or_eq {origin : Nat} {es : List Edit} {cs ds : List Char}
    (h : Spliced origin es (encodeChars cs) (encodeChars ds))
    (fits : ∀ e ∈ es, e.Fits origin cs) (put : ∀ e ∈ es, EndsSolid e.replacement.toList)
    (solid : EndsSolid cs ∨ '\n' ∉ cs) : EndsSolid ds ∨ ds = cs := by
  induction es generalizing origin cs ds with
  | nil => exact Or.inr (encodeChars_injective h.eq_of_nil)
  | cons e es ih =>
    obtain ⟨front, middle, back, rest, rfl, same, _, _, more, later⟩ := h.exists_cut fits
    obtain ⟨es', rfl⟩ := more.exists_chars later
    rw [← encodeChars_append] at same
    have tail : EndsSolid back ∨ '\n' ∉ back := by
      rw [← List.append_assoc] at solid
      rcases solid with solid | inLine
      · exact solid.of_append
      · exact Or.inr fun mem => inLine (List.mem_append_right _ mem)
    left
    rw [encodeChars_injective same, List.append_assoc]
    apply EndsSolid.prepend
    rcases ih more later (fun f hf => put f (List.mem_cons_of_mem _ hf)) tail with done | rfl
    · exact done.prepend _
    · rcases tail with done | inLine
      · exact done.prepend _
      · exact (put e List.mem_cons_self).append inLine

theorem Spliced.endsSolid {origin : Nat} {es : List Edit} {cs ds : List Char}
    (h : Spliced origin es (encodeChars cs) (encodeChars ds))
    (fits : ∀ e ∈ es, e.Fits origin cs) (put : ∀ e ∈ es, EndsSolid e.replacement.toList)
    (solid : EndsSolid cs) : EndsSolid ds := by
  rcases h.endsSolid_or_eq fits put (Or.inl solid) with done | rfl
  · exact done
  · exact solid

/-! ### What stays and what is put in -/

/-- Of two ways to cut a text in two, the one with the shorter front cuts the front of the other. -/
theorem exists_append_of_length_le {as bs cs ds : List Char} (h : as ++ bs = cs ++ ds)
    (shorter : (encodeChars as).length ≤ (encodeChars cs).length) :
    ∃ middle, cs = as ++ middle ∧ bs = middle ++ ds := by
  rcases List.append_eq_append_iff.1 h with ⟨middle, rfl, rfl⟩ | ⟨middle, rfl, rfl⟩
  · exact ⟨middle, rfl, rfl⟩
  · rw [encodeChars_append, List.length_append] at shorter
    cases encodeChars_eq_nil (show (encodeChars middle).length = 0 by omega)
    exact ⟨[], by simp, by simp⟩

/-- A part of a text that stands in another part of it. -/
theorem exists_within {front middle back front' part back' : List Char}
    (same : front ++ (middle ++ back) = front' ++ (part ++ back'))
    (first : (encodeChars front).length ≤ (encodeChars front').length)
    (last : (encodeChars front').length + (encodeChars part).length ≤
      (encodeChars front).length + (encodeChars middle).length) :
    ∃ before after, middle = before ++ (part ++ after) ∧
      (encodeChars front').length = (encodeChars front).length + (encodeChars before).length := by
  obtain ⟨before, rfl, rest⟩ := exists_append_of_length_le same first
  rw [encodeChars_append, List.length_append] at last ⊢
  have inside : before ++ part ++ back' = middle ++ back := by rw [rest, List.append_assoc]
  obtain ⟨after, rfl, _⟩ := exists_append_of_length_le inside (by
    rw [encodeChars_append, List.length_append]
    omega)
  exact ⟨before, after, List.append_assoc .., rfl⟩

/-- A part of a text that edits leave alone is in the text afterwards. -/
theorem Spliced.exists_kept {origin : Nat} {es : List Edit} {front part back ds : List Char}
    (h : Spliced origin es (encodeChars (front ++ (part ++ back))) (encodeChars ds))
    (fits : ∀ e ∈ es, e.Fits origin (front ++ (part ++ back)))
    (apart : ∀ e ∈ es, e.stop ≤ (origin + (encodeChars front).length : Nat) ∨
      (origin + (encodeChars front).length + (encodeChars part).length : Nat) ≤ e.start) :
    ∃ before after, ds = before ++ (part ++ after) := by
  induction es generalizing origin front ds with
  | nil => exact ⟨front, back, encodeChars_injective h.eq_of_nil⟩
  | cons e es ih =>
    obtain ⟨kept, old, others, rest, split, same, _, stop, more, later⟩ := h.exists_cut fits
    obtain ⟨rest, rfl⟩ := more.exists_chars later
    rw [← encodeChars_append] at same
    cases encodeChars_injective same
    rcases apart e List.mem_cons_self with before | after
    · -- the first edit comes before the part: what follows it still holds the part
      have cut : kept ++ old ++ others = front ++ (part ++ back) := by
        rw [split, List.append_assoc]
      obtain ⟨middle, rfl, rfl⟩ := exists_append_of_length_le cut (by
        rw [encodeChars_append, List.length_append]
        omega)
      have size : origin + (encodeChars (kept ++ old ++ middle)).length =
          origin + (encodeChars kept).length + (encodeChars old).length +
            (encodeChars middle).length := by
        rw [encodeChars_append, encodeChars_append, List.length_append, List.length_append]
        omega
      rw [size] at apart
      obtain ⟨before, after, rfl⟩ := ih more later fun f hf => apart f (List.mem_cons_of_mem _ hf)
      exact ⟨kept ++ e.replacement.toList ++ before, after, by simp⟩
    · -- no edit comes before the part
      have cut : front ++ part ++ back = kept ++ (old ++ others) := by
        rw [← split, List.append_assoc]
      obtain ⟨middle, rfl, _⟩ := exists_append_of_length_le cut (by
        rw [encodeChars_append, List.length_append]
        omega)
      exact ⟨front, middle ++ e.replacement.toList ++ rest, by simp⟩

/-- What an edit puts in a text is in the text afterwards. -/
theorem Spliced.exists_put {origin : Nat} {es : List Edit} {cs ds : List Char}
    (h : Spliced origin es (encodeChars cs) (encodeChars ds)) (fits : ∀ e ∈ es, e.Fits origin cs)
    {e : Edit} (he : e ∈ es) : ∃ before after, ds = before ++ (e.replacement.toList ++ after) := by
  induction es generalizing origin cs ds with
  | nil => exact (List.not_mem_nil he).elim
  | cons first es ih =>
    obtain ⟨kept, old, others, rest, rfl, same, _, _, more, later⟩ := h.exists_cut fits
    obtain ⟨rest, rfl⟩ := more.exists_chars later
    rw [← encodeChars_append] at same
    cases encodeChars_injective same
    rcases List.mem_cons.1 he with rfl | he
    · exact ⟨kept, rest, by simp⟩
    · obtain ⟨before, after, rfl⟩ := ih more later he
      exact ⟨kept ++ first.replacement.toList ++ before, after, by simp⟩

end MonoTap.Text

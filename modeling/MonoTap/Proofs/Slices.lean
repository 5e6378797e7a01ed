import MonoTap.Proofs.EditSequences

/-!
# Edits around a range

Edits that lie inside a range of a text, or wholly before it or after it, can be made in three parts: those
before the range, those inside it, and those after it. The text of the range with its own edits made is
what stands in the range when all edits are made, provided that it is a text: an edit that cuts a
character can leave bytes that are none. So the edits inside a range may be carried into a replacement of
the whole range.
-/

set_option autoImplicit false

namespace MonoTap.Text

variable {source bytes result : List UInt8} {edits es front back : List Edit} {a b origin : Nat}

/-! ### The order of edits -/

/-- Edits are in their order if they are sorted and those of each start are as given. -/
theorem eq_inOrder {sorted : List Edit} (ordered : sorted.Pairwise fun e f => e.start ≤ f.start)
    (same : ∀ start, sorted.filter (·.start == start) = edits.filter (·.start == start)) :
    sorted = inOrder edits := by
  refine eq_of_filter_start ordered (inOrder_pairwise edits) fun start => ?_
  rw [same, filter_inOrder]

/-- The edits of one start among those whose starts have some property. -/
theorem filter_filter_start (edits : List Edit) (p : Int → Bool) (start : Int) :
    (edits.filter (p ·.start)).filter (·.start == start) =
      if p start then edits.filter (·.start == start) else [] := by
  rw [List.filter_filter]
  split
  · rename_i here
    refine List.filter_congr fun e _ => Bool.eq_iff_iff.2 ?_
    rw [Bool.and_eq_true, beq_iff_eq]
    exact ⟨And.left, fun same => ⟨same, same ▸ here⟩⟩
  · rename_i notHere
    refine List.filter_eq_nil_iff.2 fun e _ h => notHere ?_
    rw [Bool.and_eq_true, beq_iff_eq] at h
    exact h.1 ▸ h.2

/-- The edits that start before an offset come first in the order, the others after them. -/
theorem inOrder_split (edits : List Edit) (offset : Int) :
    inOrder edits =
      inOrder (edits.filter (·.start < offset)) ++ inOrder (edits.filter (offset ≤ ·.start)) := by
  refine (eq_inOrder ?_ fun start => ?_).symm
  · refine List.pairwise_append.2 ⟨inOrder_pairwise _, inOrder_pairwise _, fun e he f hf => ?_⟩
    have before := of_decide_eq_true (List.mem_filter.1 (mem_inOrder.1 he)).2
    have after := of_decide_eq_true (List.mem_filter.1 (mem_inOrder.1 hf)).2
    omega
  · rw [List.filter_append, filter_inOrder, filter_inOrder,
      filter_filter_start edits (fun s => decide (s < offset)),
      filter_filter_start edits (fun s => decide (offset ≤ s))]
    by_cases before : start < offset
    · rw [if_pos (decide_eq_true before), if_neg (by simpa using before), List.append_nil]
    · rw [if_neg (by simpa using before), if_pos (by simpa using before), List.nil_append]

/-- The first edit in the order starts before those that are given before it. -/
theorem inOrder_first {e : Edit} (before : ∀ f ∈ front, e.start < f.start)
    (after : ∀ f ∈ back, e.start ≤ f.start) :
    inOrder (front ++ e :: back) = e :: inOrder (front ++ back) := by
  refine (eq_inOrder ?_ fun start => ?_).symm
  · refine List.pairwise_cons.2 ⟨fun f hf => ?_, inOrder_pairwise _⟩
    rcases List.mem_append.1 (mem_inOrder.1 hf) with h | h
    · exact Int.le_of_lt (before f h)
    · exact after f h
  · rw [List.filter_append, List.filter_cons, List.filter_cons, filter_inOrder, List.filter_append]
    split
    · rename_i here
      have none : ∀ f ∈ front, ¬ (f.start == start) = true := by
        intro f hf
        have := before f hf
        rw [beq_iff_eq] at here ⊢
        omega
      rw [List.filter_eq_nil_iff.2 none, List.nil_append, List.nil_append]
    · rfl

/-! ### Separate edits -/

/-- In the order in which they are made, each edit starts where the ones before it have ended, or later. -/
def Separate (edits : List Edit) : Prop :=
  (inOrder edits).Pairwise fun e f => e.stop ≤ f.start

theorem Edit.relativeTo_zero (e : Edit) : e.relativeTo (0 : Nat) = e := by
  simp [Edit.relativeTo]

theorem map_relativeTo_zero (edits : List Edit) : edits.map (·.relativeTo (0 : Nat)) = edits := by
  rw [List.map_congr_left fun e _ => Edit.relativeTo_zero e, List.map_id']

/-- Separate edits of some part of a text can be made in this part alone. -/
theorem exists_applyEdits_part (located : ∀ e ∈ es, e.Located origin (origin + bytes.length))
    (separate : Separate es) :
    ∃ result, applyEdits bytes (es.map (·.relativeTo origin)) = .ok result ∧
      Spliced origin (inOrder es) bytes result := by
  have inLine : InLine 0 bytes.length ((inOrder es).map (·.relativeTo origin)) := by
    refine inLine_of_pairwise (Nat.zero_le _) (fun m hm => ?_) (List.pairwise_map.2 ?_)
    · obtain ⟨e, he, rfl⟩ := List.mem_map.1 hm
      obtain ⟨start, stop, hstart, hstop, lower, width, upper⟩ := located e (mem_inOrder.1 he)
      refine ⟨start - origin, stop - origin, ?_, ?_, Nat.zero_le _, by omega, by omega⟩
      · simp only [Edit.relativeTo]
        omega
      · simp only [Edit.relativeTo]
        omega
    · refine separate.imp fun h => ?_
      simp only [Edit.relativeTo]
      omega
  obtain ⟨result, made, spliced⟩ := splice_eq_ok inLine
  refine ⟨result, ?_, ?_⟩
  · rw [applyEdits, inOrder_map_relativeTo]
    exact made
  · have moved := spliced.of_relativeTo
    rwa [Nat.zero_add] at moved

theorem exists_applyEdits (located : ∀ e ∈ edits, e.Located 0 source.length)
    (separate : Separate edits) :
    ∃ result, applyEdits source edits = .ok result ∧ Spliced 0 (inOrder edits) source result := by
  rw [← Nat.zero_add source.length] at located
  obtain ⟨result, made, spliced⟩ := exists_applyEdits_part located separate
  rw [map_relativeTo_zero] at made
  exact ⟨result, made, spliced⟩

/-- Edits of a text can be made exactly if they are separate. -/
theorem exists_applyEdits_iff (located : ∀ e ∈ edits, e.Located 0 source.length) :
    (∃ result, applyEdits source edits = .ok result) ↔ Separate edits := by
  constructor
  · rintro ⟨result, made⟩
    refine (pairwise_of_splice_eq_ok made fun e he => ?_).2
    obtain ⟨start, stop, hstart, hstop, _, width, _⟩ := located e (mem_inOrder.1 he)
    omega
  · intro separate
    obtain ⟨result, made, _⟩ := exists_applyEdits located separate
    exact ⟨result, made⟩

/-- What edits make of some bytes is determined. -/
theorem Spliced.unique {other : List UInt8} (h : Spliced origin es bytes result)
    (h' : Spliced origin es bytes other) : other = result := by
  induction h generalizing other with
  | rest origin bytes => exact h'.eq_of_nil
  | @edit origin e es kept old rest result start stop more ih =>
    generalize same : kept ++ (old ++ rest) = bytes at h'
    cases h' with
    | @edit _ _ _ kept' old' rest' result' start' stop' more' =>
      obtain ⟨rfl, others⟩ := List.append_inj same (by omega)
      obtain ⟨rfl, rfl⟩ := List.append_inj others (by omega)
      rw [ih more']

/-- Edits of the bytes up to some offset and edits of the bytes from there on, made together. -/
theorem Spliced.append {next : Nat} {later : List Edit} {more after : List UInt8}
    (h : Spliced origin es bytes result) (here : origin + bytes.length = next)
    (h' : Spliced next later more after) :
    Spliced origin (es ++ later) (bytes ++ more) (result ++ after) := by
  subst here
  induction h with
  | rest origin bytes =>
    cases h' with
    | rest => exact .rest origin (bytes ++ more)
    | edit kept start stop rest =>
      rw [← List.append_assoc, ← List.append_assoc bytes kept]
      refine .edit (bytes ++ kept) ?_ ?_ ?_
      · rw [start, List.length_append, Nat.add_assoc]
      · rw [stop, List.length_append, Nat.add_assoc origin]
      · rw [List.length_append, ← Nat.add_assoc]
        exact rest
  | @edit origin e es kept old rest result start stop _ ih =>
    rw [List.length_append, List.length_append, ← Nat.add_assoc, ← Nat.add_assoc] at h'
    have joined := Spliced.edit kept start stop (ih h')
    simpa only [List.cons_append, List.append_assoc] using joined

theorem applyEdits_of_spliced (located : ∀ e ∈ edits, e.Located 0 source.length)
    (separate : Separate edits) (spliced : Spliced 0 (inOrder edits) source result) :
    applyEdits source edits = .ok result := by
  obtain ⟨other, made, spliced'⟩ := exists_applyEdits located separate
  rw [made, spliced.unique spliced']

/-! ### Edits that leave a range whole -/

/-- An edit that lies inside a range, or before it, or after it, and that does not stand at either of its
ends if it only puts something in. -/
structure Edit.Clear (a b : Nat) (e : Edit) : Prop where
  side : e.within a b = true ∨ e.stop ≤ a ∨ b ≤ e.start
  filled : e.start = e.stop → e.start ≠ a ∧ e.start ≠ b

/-- Where such an edit lies is told by its start. -/
theorem Edit.Clear.sides {lo hi : Nat} {e : Edit} (clear : e.Clear a b) (located : e.Located lo hi)
    (order : a ≤ b) :
    (e.stop ≤ a ↔ e.start < a) ∧ (e.within a b = true ↔ a ≤ e.start ∧ e.start < b) ∧
      (e.within a b = false ↔ e.stop ≤ a ∨ b ≤ e.start) := by
  obtain ⟨start, stop, hstart, hstop, _, width, _⟩ := located
  have side := clear.side
  have filled := clear.filled
  rw [← Bool.not_eq_true]
  simp only [Edit.within, Bool.and_eq_true, decide_eq_true_eq] at side ⊢
  omega

/-- What becomes of the bytes before a range, of those inside it and of those after it, each with the
edits that lie there. -/
structure Parted (source : List UInt8) (a b : Nat) (edits : List Edit)
    (left middle right : List UInt8) : Prop where
  left : applyEdits (source.take a) (edits.filter (·.stop ≤ (a : Int))) = .ok left
  middle : applyEdits ((source.drop a).take (b - a))
    ((edits.filter (·.within a b)).map (·.relativeTo a)) = .ok middle
  right : applyEdits (source.drop b)
    ((edits.filter ((b : Int) ≤ ·.start)).map (·.relativeTo b)) = .ok right

section

variable (order : a ≤ b) (size : b ≤ source.length)
  (located : ∀ e ∈ edits, e.Located 0 source.length) (clear : ∀ e ∈ edits, e.Clear a b)

include order located clear

/-- The edits before the range are made first, then those inside it, then those after it. -/
theorem inOrder_sides :
    inOrder edits = inOrder (edits.filter (·.stop ≤ (a : Int))) ++
      (inOrder (edits.filter (·.within a b)) ++ inOrder (edits.filter ((b : Int) ≤ ·.start))) := by
  have before : edits.filter (·.stop ≤ (a : Int)) = edits.filter (·.start < (a : Int)) :=
    List.filter_congr fun e he => decide_eq_decide.2 ((clear e he).sides (located e he) order).1
  have inside : edits.filter (·.within a b) =
      (edits.filter ((a : Int) ≤ ·.start)).filter (·.start < (b : Int)) := by
    rw [List.filter_filter]
    refine List.filter_congr fun e he => Bool.eq_iff_iff.2 ?_
    rw [((clear e he).sides (located e he) order).2.1, Bool.and_eq_true, decide_eq_true_eq,
      decide_eq_true_eq]
    exact And.comm
  have after : edits.filter ((b : Int) ≤ ·.start) =
      (edits.filter ((a : Int) ≤ ·.start)).filter ((b : Int) ≤ ·.start) := by
    rw [List.filter_filter]
    refine List.filter_congr fun e _ => Bool.eq_iff_iff.2 ?_
    rw [Bool.and_eq_true, decide_eq_true_eq, decide_eq_true_eq]
    omega
  rw [before, inside, after, ← inOrder_split, ← inOrder_split]

/-- An edit of the whole range takes the place of those inside it. Where the range is empty, it must be given
before the edits that start there. -/
theorem inOrder_replacing (outer : front ++ back = edits.filter fun e => !e.within a b)
    (first : a < b ∨ ∀ e ∈ front, e.start ≠ a) (text : String) :
    inOrder (front ++ ⟨a, b, text⟩ :: back) = inOrder (edits.filter (·.stop ≤ (a : Int))) ++
      ⟨a, b, text⟩ :: inOrder (edits.filter ((b : Int) ≤ ·.start)) := by
  have sides (e : Edit) (he : e ∈ edits) := (clear e he).sides (located e he) order
  have before : (front ++ ⟨a, b, text⟩ :: back).filter (·.start < (a : Int)) =
      edits.filter (·.stop ≤ (a : Int)) := by
    rw [List.filter_append, List.filter_cons_of_neg (by simp), ← List.filter_append, outer,
      List.filter_filter]
    refine List.filter_congr fun e he => Bool.eq_iff_iff.2 ?_
    rw [Bool.and_eq_true, decide_eq_true_eq, decide_eq_true_eq, Bool.not_eq_true',
      (sides e he).2.2, (sides e he).1]
    exact ⟨And.left, fun h => ⟨h, Or.inl h⟩⟩
  have after : (front ++ back).filter ((a : Int) ≤ ·.start) =
      edits.filter ((b : Int) ≤ ·.start) := by
    rw [outer, List.filter_filter]
    refine List.filter_congr fun e he => Bool.eq_iff_iff.2 ?_
    rw [Bool.and_eq_true, decide_eq_true_eq, decide_eq_true_eq, Bool.not_eq_true',
      (sides e he).2.2, (sides e he).1]
    omega
  rw [inOrder_split _ a, before, List.filter_append, List.filter_cons_of_pos (by simp),
    inOrder_first, ← List.filter_append, after]
  · intro e he
    obtain ⟨he, notBefore⟩ := List.mem_filter.1 he
    have notInside := List.mem_filter.1 (outer ▸ List.mem_append_left back he)
    rw [Bool.not_eq_true', (sides e notInside.1).2.2, (sides e notInside.1).1] at notInside
    have notBefore := of_decide_eq_true notBefore
    show (a : Int) < e.start
    rcases first with wide | first
    · omega
    · have := first e he
      omega
  · intro e he
    exact of_decide_eq_true (List.mem_filter.1 he).2

include size

/-- The parts of a text can be edited apart from each other. -/
theorem exists_parted (separate : Separate edits) :
    ∃ left middle right, Parted source a b edits left middle right ∧
      Spliced 0 (inOrder (edits.filter (·.stop ≤ (a : Int)))) (source.take a) left ∧
      Spliced a (inOrder (edits.filter (·.within a b))) ((source.drop a).take (b - a)) middle ∧
      Spliced b (inOrder (edits.filter ((b : Int) ≤ ·.start))) (source.drop b) right := by
  have takeLength : (source.take a).length = a := by
    rw [List.length_take]
    omega
  have sliceLength : a + ((source.drop a).take (b - a)).length = b := by
    rw [List.length_take, List.length_drop]
    omega
  have dropLength : b + (source.drop b).length = source.length := by
    rw [List.length_drop]
    omega
  rw [Separate, inOrder_sides order located clear] at separate
  obtain ⟨separateBefore, others, _⟩ := List.pairwise_append.1 separate
  obtain ⟨separateInside, separateAfter, _⟩ := List.pairwise_append.1 others
  have before : ∀ e ∈ edits.filter (·.stop ≤ (a : Int)), e.Located 0 (source.take a).length := by
    intro e he
    obtain ⟨he, ends⟩ := List.mem_filter.1 he
    obtain ⟨start, stop, hstart, hstop, lower, width, upper⟩ := located e he
    have := of_decide_eq_true ends
    exact ⟨start, stop, hstart, hstop, lower, width, by omega⟩
  have inside : ∀ e ∈ edits.filter (·.within a b),
      e.Located a (a + ((source.drop a).take (b - a)).length) := by
    intro e he
    obtain ⟨he, within⟩ := List.mem_filter.1 he
    obtain ⟨start, stop, hstart, hstop, _, width, _⟩ := located e he
    simp only [Edit.within, Bool.and_eq_true, decide_eq_true_eq] at within
    exact ⟨start, stop, hstart, hstop, by omega, width, by omega⟩
  have after : ∀ e ∈ edits.filter ((b : Int) ≤ ·.start),
      e.Located b (b + (source.drop b).length) := by
    intro e he
    obtain ⟨he, starts⟩ := List.mem_filter.1 he
    obtain ⟨start, stop, hstart, hstop, _, width, upper⟩ := located e he
    have := of_decide_eq_true starts
    exact ⟨start, stop, hstart, hstop, by omega, width, by omega⟩
  obtain ⟨left, madeLeft, splicedLeft⟩ := exists_applyEdits before separateBefore
  obtain ⟨middle, madeMiddle, splicedMiddle⟩ := exists_applyEdits_part inside separateInside
  obtain ⟨right, madeRight, splicedRight⟩ := exists_applyEdits_part after separateAfter
  exact ⟨left, middle, right, ⟨madeLeft, madeMiddle, madeRight⟩, splicedLeft, splicedMiddle,
    splicedRight⟩

/-- Edits stay separate when those inside the range make way for one of the whole range. -/
theorem separate_replacing (separate : Separate edits)
    (outer : front ++ back = edits.filter fun e => !e.within a b)
    (first : a < b ∨ ∀ e ∈ front, e.start ≠ a) (text : String) :
    Separate (front ++ ⟨a, b, text⟩ :: back) ∧
      ∀ e ∈ front ++ ⟨a, b, text⟩ :: back, e.Located 0 source.length := by
  constructor
  · rw [Separate, inOrder_sides order located clear] at separate
    obtain ⟨separateBefore, others, across⟩ := List.pairwise_append.1 separate
    rw [Separate, inOrder_replacing order located clear outer first]
    refine List.pairwise_append.2 ⟨separateBefore, List.pairwise_cons.2
      ⟨fun f hf => ?_, (List.pairwise_append.1 others).2.1⟩, fun e he f hf => ?_⟩
    · exact of_decide_eq_true (List.mem_filter.1 (mem_inOrder.1 hf)).2
    · rcases List.mem_cons.1 hf with rfl | hf
      · exact of_decide_eq_true (List.mem_filter.1 (mem_inOrder.1 he)).2
      · exact across e he f (List.mem_append_right _ hf)
  · intro e he
    rcases List.mem_append.1 he with h | h
    · exact located e (List.mem_filter.1 (outer ▸ List.mem_append_left back h)).1
    · rcases List.mem_cons.1 h with rfl | h
      · exact ⟨a, b, rfl, rfl, Nat.zero_le _, order, size⟩
      · exact located e (List.mem_filter.1 (outer ▸ List.mem_append_right front h)).1

end

/-- What edits make of three parts of a text is what they make of the text. -/
theorem Spliced.join {before inside after : List Edit} {left middle right : List UInt8} (order : a ≤ b)
    (size : b ≤ source.length) (first : Spliced 0 before (source.take a) left)
    (second : Spliced a inside ((source.drop a).take (b - a)) middle)
    (third : Spliced b after (source.drop b) right) :
    Spliced 0 (before ++ (inside ++ after)) source (left ++ middle ++ right) := by
  have takeLength : 0 + (source.take a).length = a := by
    rw [List.length_take]
    omega
  have sliceLength : a + ((source.drop a).take (b - a)).length = b := by
    rw [List.length_take, List.length_drop]
    omega
  have whole : source.take a ++ ((source.drop a).take (b - a) ++ source.drop b) = source := by
    rw [show source.drop b = (source.drop a).drop (b - a) by
      rw [List.drop_drop, Nat.add_sub_cancel' order], List.take_append_drop, List.take_append_drop]
  have joined := first.append takeLength (second.append sliceLength third)
  rwa [whole, ← List.append_assoc left] at joined

/-- A text that replaces a range is what becomes of it. -/
theorem spliced_range (order : a ≤ b) (size : b ≤ source.length) (text : String) :
    Spliced a [⟨a, b, text⟩] ((source.drop a).take (b - a)) (encode text) := by
  have length : ((source.drop a).take (b - a)).length = b - a := by
    rw [List.length_take, List.length_drop]
    omega
  have replaced := @Spliced.edit a ⟨a, b, text⟩ [] [] ((source.drop a).take (b - a)) [] []
    rfl (by rw [length]; simp; omega) (.rest _ _)
  simpa only [List.nil_append, List.append_nil] using replaced

/-- Edits that lie inside a range of a text, before it or after it come to the edits before it made in what
stands before it, those inside it made in the range, and those after it made in what stands after it. The
text of the range with its edits is a reading of the bytes that these edits make of it, exact if and only
if these are the bytes of some text. They are if the range is a text and its edits cut no character, and
then the whole is put together from that text. The text of the range can be a part of what replaces the
range: the other edits make the same of the rest. -/
theorem applyEdits_in_parts (source : List UInt8) (edits : List Edit) (a b : Nat) (order : a ≤ b)
    (size : b ≤ source.length) (located : ∀ e ∈ edits, e.Located 0 source.length)
    (clear : ∀ e ∈ edits, e.Clear a b) (separate : Separate edits) :
    ∃ left middle right slice, Parted source a b edits left middle right ∧
      applyEdits source edits = .ok (left ++ middle ++ right) ∧
      sliceWithEdits source a b edits = .ok slice ∧
      (encode slice = middle ↔ ∃ text, encode text = middle) ∧
      (∀ cs, (source.drop a).take (b - a) = encodeChars cs →
        (∀ e ∈ edits, e.within a b = true → e.Fits a cs) →
          applyEdits source edits = .ok (left ++ encode slice ++ right)) ∧
      ∀ before after front back, (front ++ back = edits.filter fun e => !e.within a b) →
        (a < b ∨ ∀ e ∈ front, e.start ≠ a) →
          applyEdits source (front ++ ⟨a, b, before ++ slice ++ after⟩ :: back) =
            .ok (left ++ (encode before ++ encode slice ++ encode after) ++ right) := by
  obtain ⟨left, middle, right, parted, splicedLeft, splicedMiddle, splicedRight⟩ :=
    exists_parted order size located clear separate
  have made : applyEdits source edits = .ok (left ++ middle ++ right) := by
    refine applyEdits_of_spliced located separate ?_
    rw [inOrder_sides order located clear]
    exact splicedLeft.join order size splicedMiddle splicedRight
  have exactly (text : String) (same : encode text = middle) :
      encode (String.ofList (decodeLossy middle)) = middle := by
    rw [encode_ofList, ← same, encode_eq, decodeLossy_encodeChars]
  refine ⟨left, middle, right, String.ofList (decodeLossy middle), parted, made, ?_,
    ⟨fun same => ⟨_, same⟩, fun ⟨text, same⟩ => exactly text same⟩, fun cs range fits => ?_,
    fun before after front back outer first => ?_⟩
  · have middle := parted.middle
    rw [sliceWithEdits, between_natCast source order size, middle]
    rfl
  · rw [range] at splicedMiddle
    obtain ⟨ds, same⟩ := splicedMiddle.exists_chars fun e he => by
      obtain ⟨he, inside⟩ := List.mem_filter.1 (mem_inOrder.1 he)
      exact fits e he inside
    rw [exactly (String.ofList ds) ((encode_ofList ds).trans same.symm), made]
  · obtain ⟨separate', located'⟩ :=
      separate_replacing order size located clear separate outer first
        (before ++ String.ofList (decodeLossy middle) ++ after)
    refine applyEdits_of_spliced located' separate' ?_
    rw [inOrder_replacing order located clear outer first, ← List.singleton_append]
    have range := spliced_range order size (before ++ String.ofList (decodeLossy middle) ++ after)
    have text : encode (before ++ String.ofList (decodeLossy middle) ++ after) =
        encode before ++ encode (String.ofList (decodeLossy middle)) ++ encode after := by
      simp only [encode_eq, String.toList_append, encodeChars_append]
    rw [text] at range
    exact splicedLeft.join order size range splicedRight

/-- A call with a two-byte character in it and one before it: the edit before the range ends where the range
begins, the edit after the range begins where it ends, and inside the range one text is put in where another
one is replaced. -/
theorem applyEdits_in_parts_of_touching :
    let source := encode "aé(ü)z"
    let edits : List Edit := [⟨7, 8, ""⟩, ⟨4, 4, "x"⟩, ⟨1, 3, "e"⟩, ⟨4, 6, "öö"⟩]
    (∀ e ∈ edits, e.Located 0 source.length) ∧ (∀ e ∈ edits, e.Clear 3 7) ∧ Separate edits ∧
      (source.drop 3).take (7 - 3) = encodeChars ['(', 'ü', ')'] ∧
      applyEdits source edits = .ok (encode "ae(xöö)") ∧
      sliceWithEdits source 3 7 edits = .ok "(xöö)" ∧
      applyEdits source [⟨7, 8, ""⟩, ⟨1, 3, "e"⟩, ⟨3, 7, "f" ++ "(xöö)" ++ ";"⟩] =
        .ok (encode "aef(xöö);") := by
  intro source edits
  have size : source.length = 8 := by decide +kernel
  have located : ∀ e ∈ edits, e.Located 0 source.length := by
    intro e he
    rw [size]
    simp only [edits, List.mem_cons, List.not_mem_nil, or_false] at he
    rcases he with rfl | rfl | rfl | rfl
    · exact ⟨7, 8, rfl, rfl, by decide⟩
    · exact ⟨4, 4, rfl, rfl, by decide⟩
    · exact ⟨1, 3, rfl, rfl, by decide⟩
    · exact ⟨4, 6, rfl, rfl, by decide⟩
  have clear : ∀ e ∈ edits, e.Clear 3 7 := by
    intro e he
    simp only [edits, List.mem_cons, List.not_mem_nil, or_false] at he
    rcases he with rfl | rfl | rfl | rfl <;> exact ⟨by decide, by decide⟩
  have separate : Separate edits := by
    have sorting : inOrder edits = [⟨1, 3, "e"⟩, ⟨4, 4, "x"⟩, ⟨4, 6, "öö"⟩, ⟨7, 8, ""⟩] := by
      simp [edits, inOrder, List.mergeSort]
    rw [Separate, sorting]
    decide
  have range : (source.drop 3).take (7 - 3) = encodeChars ['(', 'ü', ')'] := by decide +kernel
  have fits : ∀ e ∈ edits, e.within 3 7 = true → e.Fits 3 ['(', 'ü', ')'] := by
    have first : Boundary 3 ['(', 'ü', ')'] 4 := ⟨['('], ['ü', ')'], rfl, by decide +kernel⟩
    have second : Boundary 3 ['(', 'ü', ')'] 6 := ⟨['(', 'ü'], [')'], rfl, by decide +kernel⟩
    intro e he inside
    simp only [edits, List.mem_cons, List.not_mem_nil, or_false] at he
    rcases he with rfl | rfl | rfl | rfl
    · cases inside
    · exact ⟨4, 4, rfl, rfl, Nat.le_refl _, first, first⟩
    · cases inside
    · exact ⟨4, 6, rfl, rfl, by decide, first, second⟩
  obtain ⟨left, middle, right, slice, parted, _, sliced, exactly, kept, carried⟩ :=
    applyEdits_in_parts source edits 3 7 (by decide) (by rw [size]; decide) located clear separate
  have madeLeft : applyEdits (source.take 3) [⟨1, 3, "e"⟩] = .ok (encode "ae") := by decide +kernel
  have madeMiddle : applyEdits ((source.drop 3).take (7 - 3)) [⟨1, 1, "x"⟩, ⟨1, 3, "öö"⟩] =
      .ok (encode "(xöö)") := by
    have sorting : inOrder [⟨1, 1, "x"⟩, ⟨1, 3, "öö"⟩] = [⟨1, 1, "x"⟩, ⟨1, 3, "öö"⟩] := by
      simp [inOrder, List.mergeSort]
    rw [applyEdits, sorting]
    decide +kernel
  have madeRight : applyEdits (source.drop 7) [⟨0, 1, ""⟩] = .ok [] := by decide +kernel
  cases Except.ok.inj (parted.left.symm.trans madeLeft)
  cases Except.ok.inj (parted.middle.symm.trans madeMiddle)
  cases Except.ok.inj (parted.right.symm.trans madeRight)
  cases encode_injective (exactly.2 ⟨_, rfl⟩)
  have replaced := carried "f" ";" [⟨7, 8, ""⟩, ⟨1, 3, "e"⟩] [] (by decide) (Or.inl (by decide))
  have joined : encode "ae" ++ encode "(xöö)" = encode "ae(xöö)" := by decide +kernel
  have around : encode "ae" ++ (encode "f" ++ encode "(xöö)" ++ encode ";") =
      encode "aef(xöö);" := by decide +kernel
  rw [List.append_nil, around] at replaced
  have put := kept _ range fits
  rw [List.append_nil, joined] at put
  exact ⟨located, clear, separate, range, put, sliced, replaced⟩

/-- Where an edit inside the range cuts a character, the text of the range with its edits need not be what
stands there when they are made. -/
theorem slice_of_cut_character :
    let source := encodeChars ['é']
    let edits : List Edit := [⟨0, 1, "x"⟩]
    (∀ e ∈ edits, e.Located 0 source.length) ∧ (∀ e ∈ edits, e.Clear 0 2) ∧ Separate edits ∧
      Boundary 0 ['é'] 0 ∧ Boundary 0 ['é'] 2 ∧
      ¬ ∃ left slice right, applyEdits (source.take 0) (edits.filter (·.stop ≤ (0 : Int))) = .ok left ∧
        sliceWithEdits source 0 2 edits = .ok slice ∧
        applyEdits (source.drop 2) ((edits.filter ((2 : Int) ≤ ·.start)).map (·.relativeTo 2)) =
          .ok right ∧
        applyEdits source edits = .ok (left ++ encode slice ++ right) := by
  intro source edits
  refine ⟨?_, ?_, ?_, Boundary.start 0 ['é'], Boundary.stop 0 ['é'], ?_⟩
  · intro e he
    cases List.mem_singleton.1 he
    exact ⟨0, 1, rfl, rfl, by decide +kernel⟩
  · intro e he
    cases List.mem_singleton.1 he
    exact ⟨by decide, by decide⟩
  · rw [Separate, show inOrder edits = edits from List.mergeSort_singleton _]
    exact List.pairwise_singleton _ _
  · rintro ⟨left, slice, right, madeLeft, _, madeRight, whole⟩
    -- the bytes end with the second half of a character, which is the end of no text
    have leftNil : applyEdits (source.take 0) (edits.filter (·.stop ≤ (0 : Int))) = .ok [] := by
      decide +kernel
    have rightNil : applyEdits (source.drop 2)
        ((edits.filter ((2 : Int) ≤ ·.start)).map (·.relativeTo 2)) = .ok [] := by decide +kernel
    have made : applyEdits source edits = .ok [0x78, 0xA9] := by decide +kernel
    cases Except.ok.inj (madeLeft.symm.trans leftNil)
    cases Except.ok.inj (madeRight.symm.trans rightNil)
    have cut := Except.ok.inj (made.symm.trans whole)
    rw [List.nil_append, List.append_nil, encode_eq] at cut
    have read : decodeLossy [0x78, 0xA9] = ['x', replacement] := by
      simp [decodeLossy, readChar]
    rw [cut, decodeLossy_encodeChars] at read
    rw [read] at cut
    exact absurd cut (by decide +kernel)

end MonoTap.Text

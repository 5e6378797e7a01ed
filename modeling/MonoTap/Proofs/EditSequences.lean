import Mathlib.Data.List.Sublists
import MonoTap.Proofs.Splicing

/-!
# Edits one at a time

Making several edits in one pass comes to making them one after the other, from the last to the first
in the order of their starts: none of them moves what the next one replaces. The pass fails exactly if
an edit starts before the end of the one before it. Edits with one start keep the order they are given
in; if no two edits have one start, it does not matter in which order they are given.
-/

set_option autoImplicit false

namespace MonoTap.Text

/-! ### The order of edits -/

/-- A list of edits sorted by their starts, with edits of one start in the order given. -/
structure StablySorted (given sorted : List Edit) : Prop where
  perm : sorted.Perm given
  ordered : sorted.Pairwise fun a b => a.start ≤ b.start
  stable : ∀ start, sorted.filter (·.start == start) = given.filter (·.start == start)

theorem stablySorted_inOrder (edits : List Edit) : StablySorted edits (inOrder edits) :=
  ⟨inOrder_perm edits, inOrder_pairwise edits, filter_inOrder edits⟩

/-- Sorted edits are determined by the edits of each start. -/
theorem eq_of_filter_start {as bs : List Edit} (first : as.Pairwise fun a b => a.start ≤ b.start)
    (second : bs.Pairwise fun a b => a.start ≤ b.start)
    (same : ∀ start, as.filter (·.start == start) = bs.filter (·.start == start)) : as = bs := by
  have mem {e : Edit} : e ∈ as ↔ e ∈ bs := by
    have := congrArg (e ∈ ·) (same e.start)
    simpa using this
  induction as generalizing bs with
  | nil =>
    cases bs with
    | nil => rfl
    | cons b bs => exact absurd (mem.2 List.mem_cons_self) (List.not_mem_nil)
  | cons a as ih =>
    cases bs with
    | nil => exact absurd (mem.1 List.mem_cons_self) (List.not_mem_nil)
    | cons b bs =>
      have aFirst : a.start ≤ b.start := by
        rcases List.mem_cons.1 (mem.2 List.mem_cons_self) with rfl | h
        · exact Int.le_refl _
        · exact (List.pairwise_cons.1 first).1 b h
      have bFirst : b.start ≤ a.start := by
        rcases List.mem_cons.1 (mem.1 List.mem_cons_self) with rfl | h
        · exact Int.le_refl _
        · exact (List.pairwise_cons.1 second).1 a h
      have start : b.start = a.start := by omega
      have heads := same a.start
      rw [List.filter_cons_of_pos (by simp), List.filter_cons_of_pos (by simp [start])] at heads
      obtain ⟨rfl, _⟩ := List.cons.inj heads
      have tails (s : Int) : as.filter (·.start == s) = bs.filter (·.start == s) := by
        have := same s
        rw [List.filter_cons, List.filter_cons] at this
        split at this
        · exact (List.cons.inj this).2
        · exact this
      rw [ih first.of_cons second.of_cons tails]
      intro e
      have := congrArg (e ∈ ·) (tails e.start)
      simpa using this

/-- Edits have one stable order. -/
theorem stablySorted_iff {edits sorted : List Edit} :
    StablySorted edits sorted ↔ sorted = inOrder edits := by
  constructor
  · intro h
    refine eq_of_filter_start h.ordered (inOrder_pairwise edits) fun start => ?_
    rw [h.stable, filter_inOrder]
  · rintro rfl
    exact stablySorted_inOrder edits

/-- Of edits with different starts each start has at most one. -/
theorem filter_start_of_pairwise_ne {edits : List Edit}
    (distinct : edits.Pairwise fun a b => a.start ≠ b.start) {e : Edit} (he : e ∈ edits) :
    edits.filter (·.start == e.start) = [e] := by
  induction edits with
  | nil => exact absurd he List.not_mem_nil
  | cons f edits ih =>
    obtain ⟨others, distinct⟩ := List.pairwise_cons.1 distinct
    rcases List.mem_cons.1 he with rfl | he
    · rw [List.filter_cons_of_pos (by simp), List.filter_eq_nil_iff.2]
      intro g hg
      have := others g hg
      simp only [beq_iff_eq]
      omega
    · have := others e he
      rw [List.filter_cons_of_neg (by simpa using this), ih distinct he]

/-- If no two edits have one start, their order does not depend on the order in which they are given. -/
theorem inOrder_eq_of_perm {edits others : List Edit}
    (distinct : edits.Pairwise fun a b => a.start ≠ b.start) (perm : others.Perm edits) :
    inOrder others = inOrder edits := by
  have distinct' : others.Pairwise fun a b => a.start ≠ b.start :=
    perm.symm.pairwise distinct Ne.symm
  refine eq_of_filter_start (inOrder_pairwise others) (inOrder_pairwise edits) fun start => ?_
  rw [filter_inOrder, filter_inOrder]
  by_cases found : ∃ e ∈ edits, e.start = start
  · obtain ⟨e, he, rfl⟩ := found
    rw [filter_start_of_pairwise_ne distinct he,
      filter_start_of_pairwise_ne distinct' (perm.mem_iff.2 he)]
  · have none (e : Edit) (he : e ∈ edits) : ¬ (e.start == start) = true := fun h =>
      found ⟨e, he, beq_iff_eq.1 h⟩
    rw [List.filter_eq_nil_iff.2 fun e he => none e he,
      List.filter_eq_nil_iff.2 fun e he => none e (perm.mem_iff.1 he)]

/-! ### One edit after the other -/

/-- The bytes with one edit made. -/
def Edit.put (e : Edit) (bytes : List UInt8) : List UInt8 :=
  bytes.take e.start.toNat ++ encode e.replacement ++ bytes.drop e.stop.toNat

/-- The pass over the bytes from an offset on comes to making the edits from the last to the first. -/
theorem foldr_put_of_splice {bytes result : List UInt8} {cursor : Nat} {es : List Edit}
    (inLine : InLine cursor bytes.length es) (made : splice bytes cursor es = .ok result) :
    es.foldr Edit.put bytes = bytes.take cursor ++ result := by
  induction es generalizing cursor result with
  | nil =>
    rw [splice, beyond_natCast bytes inLine] at made
    cases made
    exact (List.take_append_drop cursor bytes).symm
  | cons e es ih =>
    obtain ⟨start, stop, hstart, hstop, lower, width, rest⟩ := inLine
    have upper := rest.le
    have notBefore : ¬ e.start < (cursor : Int) := by omega
    obtain ⟨tail, htail, _⟩ := splice_eq_ok rest
    rw [splice, if_neg notBefore, hstart, hstop, htail,
      between_natCast bytes lower (by omega)] at made
    cases made
    have prefixLength : (bytes.take stop).length = stop := by
      rw [List.length_take]
      omega
    have front : (bytes.take stop ++ tail).take start = bytes.take start := by
      rw [List.take_append_of_le_length (by omega), List.take_take, Nat.min_eq_left width]
    have back : (bytes.take stop ++ tail).drop stop = tail := by
      rw [List.drop_append_of_le_length (by omega), List.drop_eq_nil_of_le (by omega),
        List.nil_append]
    have cut : bytes.take start = bytes.take cursor ++ (bytes.drop cursor).take (start - cursor) := by
      rw [← List.take_add, Nat.add_sub_cancel' lower]
    rw [List.foldr_cons, ih rest htail, Edit.put, hstart, hstop, Int.toNat_natCast,
      Int.toNat_natCast, front, back, cut]
    simp only [List.append_assoc]

/-- The pass fails exactly if an edit starts before the end of the one before it. -/
theorem splice_eq_error_iff {bytes : List UInt8} {cursor : Nat} {es : List Edit}
    (bounds : cursor ≤ bytes.length) (located : ∀ e ∈ es, e.Located 0 bytes.length)
    (ahead : ∀ e ∈ es.head?, (cursor : Int) ≤ e.start) :
    (∃ o, splice bytes cursor es = .error o) ↔
      ∃ front a b back, es = front ++ a :: b :: back ∧ b.start < a.stop := by
  induction es generalizing cursor with
  | nil => simp [splice]
  | cons a es ih =>
    obtain ⟨start, stop, hstart, hstop, _, width, upper⟩ := located a List.mem_cons_self
    have first : ¬ a.start < (cursor : Int) := by
      have := ahead a (by simp)
      omega
    have step : (∃ o, splice bytes cursor (a :: es) = .error o) ↔
        ∃ o, splice bytes stop es = .error o := by
      rw [splice, if_neg first, hstop]
      cases splice bytes stop es <;> simp [Except.map]
    rw [step]
    cases es with
    | nil =>
      constructor
      · rintro ⟨o, h⟩
        cases h
      · rintro ⟨front, x, y, back, same, _⟩
        have := congrArg List.length same
        simp only [List.length_append, List.length_cons, List.length_nil] at this
        omega
    | cons b es =>
      by_cases overlap : b.start < a.stop
      · refine ⟨fun _ => ⟨[], a, b, es, rfl, overlap⟩, fun _ => ⟨⟨b.start⟩, ?_⟩⟩
        rw [splice, if_pos (by omega)]
      · rw [ih upper (fun e he => located e (List.mem_cons_of_mem a he)) (by simpa using by omega)]
        constructor
        · rintro ⟨front, x, y, back, same, h⟩
          exact ⟨a :: front, x, y, back, by rw [same]; rfl, h⟩
        · rintro ⟨front, x, y, back, same, h⟩
          cases front with
          | nil =>
            injection same with first rest
            subst first
            obtain ⟨rfl, _⟩ := List.cons.inj rest
            exact absurd h overlap
          | cons f front => exact ⟨front, x, y, back, (List.cons.inj same).2, h⟩

/-- Edits of a text that can be made in this order are in line. -/
theorem inLine_of_splice {bytes result : List UInt8} {es : List Edit}
    (located : ∀ e ∈ es, e.Located 0 bytes.length) (made : splice bytes 0 es = .ok result) :
    InLine 0 bytes.length es := by
  have forwards : ∀ e ∈ es, e.start ≤ e.stop := by
    intro e he
    obtain ⟨start, stop, hstart, hstop, _, width, _⟩ := located e he
    omega
  exact inLine_of_pairwise (Nat.zero_le _) located (pairwise_of_splice_eq_ok made forwards).2

/-! ### Bytes outside the edits -/

/-- The bytes, which begin at the offset `origin`, that no edit replaces. -/
def outside (edits : List Edit) (origin : Nat) (bytes : List UInt8) : List UInt8 :=
  ((bytes.zipIdx origin).filter fun p =>
    !edits.any fun e => decide (e.start ≤ p.2 ∧ (p.2 : Int) < e.stop)).map (·.1)

theorem outside_append (edits : List Edit) (origin : Nat) (first second : List UInt8) :
    outside edits origin (first ++ second) =
      outside edits origin first ++ outside edits (origin + first.length) second := by
  rw [outside, List.zipIdx_append, List.filter_append, List.map_append]
  rfl

/-- What several edits leave of some bytes, fewer edits leave as well. -/
theorem outside_sublist_of_subset {edits fewer : List Edit} (subset : fewer ⊆ edits) (origin : Nat)
    (bytes : List UInt8) : (outside edits origin bytes).Sublist (outside fewer origin bytes) := by
  refine (List.monotone_filter_right _ fun p h => ?_).map _
  rw [Bool.not_eq_true', List.any_eq_false] at h ⊢
  exact fun e he => h e (subset he)

theorem outside_sublist (edits : List Edit) (origin : Nat) (bytes : List UInt8) :
    (outside edits origin bytes).Sublist bytes := by
  have kept := (List.filter_sublist (p := fun p : UInt8 × Nat =>
    !edits.any fun e => decide (e.start ≤ p.2 ∧ (p.2 : Int) < e.stop))
    (l := bytes.zipIdx origin)).map (·.1)
  rwa [List.zipIdx_map_fst] at kept

/-- An edit leaves nothing of what it replaces. -/
theorem outside_eq_nil {edits : List Edit} {e : Edit} (he : e ∈ edits) {origin : Nat}
    {bytes : List UInt8} (start : e.start ≤ origin) (stop : (origin + bytes.length : Nat) ≤ e.stop) :
    outside edits origin bytes = [] := by
  rw [outside, List.map_eq_nil_iff, List.filter_eq_nil_iff]
  rintro ⟨b, i⟩ h
  have bounds := List.mem_zipIdx h
  have inside : edits.any (fun e => decide (e.start ≤ i ∧ (i : Int) < e.stop)) = true :=
    List.any_eq_true.2 ⟨e, he, decide_eq_true (by omega)⟩
  rw [inside]
  exact Bool.false_ne_true

/-- The bytes that no edit replaces stay, in order. -/
theorem Spliced.outside_sublist {origin : Nat} {edits : List Edit} {bytes result : List UInt8}
    (h : Spliced origin edits bytes result) : (outside edits origin bytes).Sublist result := by
  induction h with
  | rest origin bytes => exact Text.outside_sublist [] origin bytes
  | @edit origin e es kept old rest result start stop more ih =>
    rw [outside_append, outside_append]
    have replaced : outside (e :: es) (origin + kept.length) old = [] :=
      outside_eq_nil List.mem_cons_self (by omega) (by omega)
    have behind := (outside_sublist_of_subset (List.subset_cons_self e es) _ rest).trans ih
    rw [replaced, List.nil_append]
    exact (Text.outside_sublist _ origin kept).append
      (behind.trans (List.sublist_append_right (encode e.replacement) result))

/-! ### All edits of a text -/

/-- Edits of a text have one stable order by their starts. They fail exactly if in that order one starts
before the end of the one before it. Else they come to the same as making them one after the other, from
the last to the first in that order: between their replacements, the bytes outside them stay. If no two
have one start, it does not matter in which order they are given. -/
theorem applyEdits_one_at_a_time (source : List UInt8) (edits : List Edit)
    (located : ∀ e ∈ edits, e.Located 0 source.length) :
    ∃ sorted, (∀ es, StablySorted edits es ↔ es = sorted) ∧
      ((∃ o, applyEdits source edits = .error o) ↔
        ∃ front a b back, sorted = front ++ a :: b :: back ∧ b.start < a.stop) ∧
      (∀ result, applyEdits source edits = .ok result →
        result = sorted.foldr Edit.put source ∧ Spliced 0 sorted source result ∧
          (outside edits 0 source).Sublist result) ∧
      (edits.Pairwise (fun a b => a.start ≠ b.start) → ∀ others : List Edit, others.Perm edits →
        applyEdits source others = applyEdits source edits) := by
  have located' : ∀ e ∈ inOrder edits, e.Located 0 source.length := fun e he =>
    located e (mem_inOrder.1 he)
  refine ⟨inOrder edits, fun es => stablySorted_iff, ?_, fun result made => ?_,
    fun distinct others perm => ?_⟩
  · refine @splice_eq_error_iff source 0 _ (Nat.zero_le _) located' fun e he => ?_
    obtain ⟨start, stop, hstart, _⟩ := located' e (List.mem_of_mem_head? he)
    omega
  · have inLine := inLine_of_splice located' made
    obtain ⟨result', made', spliced⟩ := splice_eq_ok inLine
    cases made.symm.trans made'
    refine ⟨(foldr_put_of_splice inLine made).symm, spliced, ?_⟩
    exact (outside_sublist_of_subset (fun e he => mem_inOrder.1 he) 0 source).trans
      spliced.outside_sublist
  · rw [applyEdits, applyEdits, inOrder_eq_of_perm distinct perm]

/-- An insertion at the start of a range that is taken out, and a replacement that touches its end. -/
theorem applyEdits_one_at_a_time_of_touching :
    let source : List UInt8 := [0, 1, 2, 3, 4, 5]
    let edits : List Edit := [⟨4, 5, "z"⟩, ⟨2, 2, "ab"⟩, ⟨2, 4, ""⟩]
    (∀ e ∈ edits, e.Located 0 source.length) ∧
      StablySorted edits [⟨2, 2, "ab"⟩, ⟨2, 4, ""⟩, ⟨4, 5, "z"⟩] ∧
      applyEdits source edits =
        .ok ([⟨2, 2, "ab"⟩, ⟨2, 4, ""⟩, ⟨4, 5, "z"⟩].foldr Edit.put source) ∧
      (outside edits 0 source).Sublist [0, 1, 97, 98, 122, 5] := by
  intro source edits
  have located : ∀ e ∈ edits, e.Located 0 source.length := by
    intro e he
    simp only [edits, List.mem_cons, List.not_mem_nil, or_false] at he
    rcases he with rfl | rfl | rfl
    · exact ⟨4, 5, rfl, rfl, by decide⟩
    · exact ⟨2, 2, rfl, rfl, by decide⟩
    · exact ⟨2, 4, rfl, rfl, by decide⟩
  have sorting : inOrder edits = [⟨2, 2, "ab"⟩, ⟨2, 4, ""⟩, ⟨4, 5, "z"⟩] := by
    simp [edits, inOrder, List.mergeSort]
  have sorted := stablySorted_iff.2 sorting.symm
  obtain ⟨es, unique, _, same, _⟩ := applyEdits_one_at_a_time source edits located
  have made : applyEdits source edits = .ok [0, 1, 97, 98, 122, 5] := by
    rw [applyEdits, sorting]
    decide +kernel
  obtain ⟨result, _, kept⟩ := same _ made
  rw [← (unique _).1 sorted] at result
  exact ⟨located, sorted, made.trans (congrArg Except.ok result), kept⟩

end MonoTap.Text

import MonoTap.Proofs.Returns
import MonoTap.Proofs.Splicing

/-!
# Edits and carriage returns

Edits can be made before or after a carriage return is put before each line feed, if their positions
are moved by the carriage returns and their texts get them too.
-/

set_option autoImplicit false

namespace MonoTap.Text

/-- The edit of a text for the same text with a carriage return before each line feed. -/
def Edit.crlf (bs : List UInt8) (e : Edit) : Edit :=
  ⟨(crlfOffset bs e.start.toNat : Nat), (crlfOffset bs e.stop.toNat : Nat),
    crlfText e.replacement⟩

variable {bs : List UInt8} {es : List Edit} {e : Edit}

/-! ### Order -/

theorem Edit.start_crlf_le_iff {f : Edit} (he : 0 ≤ e.start) (hf : 0 ≤ f.start) :
    (e.crlf bs).start ≤ (f.crlf bs).start ↔ e.start ≤ f.start := by
  rw [crlf, crlf, Int.ofNat_le, crlfOffset_le_iff]
  omega

/-- Edits keep their order. -/
theorem inOrder_map_crlf (located : ∀ e ∈ es, 0 ≤ e.start) :
    inOrder (es.map (·.crlf bs)) = (inOrder es).map (·.crlf bs) := by
  refine (List.map_mergeSort fun a ha b hb => ?_).symm
  exact decide_eq_decide.2 (Edit.start_crlf_le_iff (located a ha) (located b hb)).symm

/-- The order of edits depends on the order in which those with one start are given, and on nothing
else. -/
theorem inOrder_congr {fs : List Edit}
    (same : ∀ start, es.filter (·.start == start) = fs.filter (·.start == start)) :
    inOrder es = inOrder fs := by
  have sorted (start : Int) : (inOrder es).filter (·.start == start) =
      (inOrder fs).filter (·.start == start) := by
    rw [filter_inOrder, filter_inOrder, same]
  have own (a : Edit) (l : List Edit) :
      (a :: l).filter (·.start == a.start) = a :: l.filter (·.start == a.start) :=
    List.filter_cons_of_pos (beq_self_eq_true a.start)
  have first := inOrder_pairwise es
  have second := inOrder_pairwise fs
  generalize inOrder es = l at sorted first
  generalize inOrder fs = m at sorted second
  induction l generalizing m with
  | nil =>
    cases m with
    | nil => rfl
    | cons f m =>
      have := sorted f.start
      rw [List.filter_nil, own] at this
      cases this
  | cons e l ih =>
    cases m with
    | nil =>
      have := sorted e.start
      rw [List.filter_nil, own] at this
      cases this
    | cons f m =>
      -- the first edits have the least start, and are the first with it
      have present {a b : Edit} {l m : List Edit} (h : (b :: m).Pairwise fun a b => a.start ≤ b.start)
          (same : (a :: l).filter (·.start == a.start) = (b :: m).filter (·.start == a.start)) :
          b.start ≤ a.start := by
        have mem : a ∈ (b :: m).filter (·.start == a.start) := by
          rw [← same, own]
          exact List.mem_cons_self
        rcases List.mem_cons.1 (List.mem_filter.1 mem).1 with rfl | mem
        · exact Int.le_refl _
        · exact (List.pairwise_cons.1 h).1 a mem
      have start : e.start = f.start :=
        Int.le_antisymm (present first (sorted f.start).symm) (present second (sorted e.start))
      have heads := sorted e.start
      rw [own, start, own] at heads
      obtain ⟨rfl, _⟩ := List.cons.inj heads
      rw [ih (List.pairwise_cons.1 first).2 m (fun k => ?_) (List.pairwise_cons.1 second).2]
      have tails := sorted k
      rw [List.filter_cons, List.filter_cons] at tails
      split at tails
      · exact (List.cons.inj tails).2
      · exact tails

/-! ### Making edits -/

/-- Edits are made alike with and without carriage returns. -/
theorem splice_crlfBytes {cursor : Nat} (inside : cursor ≤ bs.length)
    (located : ∀ e ∈ es, e.Located 0 bs.length) :
    (splice (crlfBytes bs) (crlfOffset bs cursor : Nat) (es.map (·.crlf bs))).toOption =
      (splice bs cursor es).toOption.map crlfBytes := by
  induction es generalizing cursor with
  | nil =>
    rw [List.map_nil, splice, splice, beyond_natCast _ inside, beyond_natCast _ (crlfOffset_le_length inside),
      drop_crlfBytes]
    rfl
  | cons e es ih =>
    obtain ⟨start, stop, hstart, hstop, _, order, upper⟩ := located e List.mem_cons_self
    have others := ih upper fun f hf => located f (List.mem_cons_of_mem _ hf)
    have first : (e.crlf bs).start = (crlfOffset bs start : Nat) := by
      rw [Edit.crlf, hstart, Int.toNat_natCast]
    have last : (e.crlf bs).stop = (crlfOffset bs stop : Nat) := by
      rw [Edit.crlf, hstop, Int.toNat_natCast]
    rw [List.map_cons, splice, splice, first, last, hstart, hstop]
    by_cases early : start < cursor
    · rw [if_pos (Int.ofNat_lt.2 (crlfOffset_lt_iff.2 early)), if_pos (Int.ofNat_lt.2 early)]
      rfl
    · have after : cursor ≤ start := Nat.le_of_not_lt early
      rw [if_neg fun h => early (crlfOffset_lt_iff.1 (Int.ofNat_lt.1 h)),
        if_neg fun h => early (Int.ofNat_lt.1 h),
        between_natCast _ after (Nat.le_trans order upper),
        between_natCast _ (crlfOffset_le_iff.2 after)
          (crlfOffset_le_length (Nat.le_trans order upper)),
        take_drop_crlfBytes]
      cases made : splice bs stop es with
      | error o =>
        rw [made] at others
        cases made' : splice (crlfBytes bs) (crlfOffset bs stop : Nat) (es.map (·.crlf bs)) with
        | error o => rfl
        | ok rest =>
          rw [made'] at others
          cases others
      | ok rest =>
        rw [made] at others
        cases made' : splice (crlfBytes bs) (crlfOffset bs stop : Nat) (es.map (·.crlf bs)) with
        | error o =>
          rw [made'] at others
          cases others
        | ok rest' =>
          rw [made'] at others
          obtain rfl : rest' = crlfBytes rest := Option.some.inj others
          show some _ = some _
          rw [crlfBytes_append, crlfBytes_append, Edit.crlf, encode_crlfText]

theorem applyEdits_crlfBytes (located : ∀ e ∈ es, e.Located 0 bs.length) :
    (applyEdits (crlfBytes bs) (es.map (·.crlf bs))).toOption =
      (applyEdits bs es).toOption.map crlfBytes := by
  have starts : ∀ e ∈ es, 0 ≤ e.start := fun e he => by
    obtain ⟨start, _, hstart, _⟩ := located e he
    omega
  rw [applyEdits, applyEdits, inOrder_map_crlf starts]
  have made := @splice_crlfBytes bs (inOrder es) 0 (Nat.zero_le bs.length)
    fun e he => located e (mem_inOrder.1 he)
  exact made

/-! ### Edits of a part of a text -/

/-- Edits of some bytes leave alone what follows. -/
theorem splice_append {cursor : Nat} (inside : cursor ≤ bs.length)
    (located : ∀ e ∈ es, e.Located 0 bs.length) (more : List UInt8) :
    (splice (bs ++ more) cursor es).toOption = (splice bs cursor es).toOption.map (· ++ more) := by
  have limit {a : Nat} (h : a ≤ bs.length) : a ≤ (bs ++ more).length := by
    rw [List.length_append]
    exact Nat.le_add_right_of_le h
  induction es generalizing cursor with
  | nil =>
    rw [splice, splice, beyond_natCast _ inside, beyond_natCast _ (limit inside),
      List.drop_append_of_le_length inside]
    rfl
  | cons e es ih =>
    obtain ⟨start, stop, hstart, hstop, _, order, upper⟩ := located e List.mem_cons_self
    have others := ih upper fun f hf => located f (List.mem_cons_of_mem _ hf)
    rw [splice, splice, hstart, hstop]
    by_cases early : (start : Int) < cursor
    · rw [if_pos early, if_pos early]
      rfl
    · have after : cursor ≤ start := by omega
      have kept : ((bs ++ more).drop cursor).take (start - cursor) =
          (bs.drop cursor).take (start - cursor) := by
        rw [List.drop_append_of_le_length inside, List.take_append_of_le_length]
        rw [List.length_drop]
        omega
      rw [if_neg early, if_neg early, between_natCast _ after (Nat.le_trans order upper),
        between_natCast _ after (limit (Nat.le_trans order upper)), kept]
      cases made : splice bs stop es <;> cases made' : splice (bs ++ more) stop es <;>
        rw [made, made'] at others
      · rfl
      · cases others
      · cases others
      · rename_i rest rest'
        obtain rfl : rest' = rest ++ more := Option.some.inj others
        exact congrArg some (List.append_assoc _ rest more).symm

theorem Edit.within_crlf {start stop stop' : Nat} {tail : String} (ends : Ends bs stop stop' tail)
    (located : e.Located 0 bs.length) :
    (e.crlf bs).within (crlfOffset bs start : Nat) stop' = e.within start stop := by
  obtain ⟨first, last, hfirst, hlast, _⟩ := located
  have upper := ends.crlfOffset_le_iff (a := last)
  have lower : crlfOffset bs start ≤ crlfOffset bs first ↔ start ≤ first := crlfOffset_le_iff
  rw [Bool.eq_iff_iff, within, within, Bool.and_eq_true, Bool.and_eq_true, decide_eq_true_eq,
    decide_eq_true_eq, decide_eq_true_eq, decide_eq_true_eq, crlf, hfirst, hlast,
    Int.toNat_natCast, Int.toNat_natCast]
  simp only [Int.ofNat_le]
  rw [upper, lower]

theorem Edit.relativeTo_crlf {start stop : Nat} (located : e.Located 0 bs.length)
    (inside : e.within start stop = true) :
    (e.crlf bs).relativeTo (crlfOffset bs start : Nat) =
      (e.relativeTo start).crlf ((bs.drop start).take (stop - start)) := by
  obtain ⟨first, last, hfirst, hlast, _, order, _⟩ := located
  rw [within, Bool.and_eq_true, decide_eq_true_eq, decide_eq_true_eq, hfirst, hlast] at inside
  have moved {a : Nat} (lower : start ≤ a) (upper : a ≤ stop) :
      ((crlfOffset bs a : Nat) : Int) - (crlfOffset bs start : Nat) =
        (crlfOffset ((bs.drop start).take (stop - start)) ((a : Int) - start).toNat : Nat) := by
    have there := crlfOffset_drop bs start (a - start)
    have same : crlfOffset ((bs.drop start).take (stop - start)) (a - start) =
        crlfOffset (bs.drop start) (a - start) := by
      rw [crlfOffset, List.take_take, Nat.min_eq_left (by omega), crlfOffset]
    rw [show ((a : Int) - start).toNat = a - start by omega, same]
    rw [Nat.add_sub_cancel' lower] at there
    omega
  have firstMoved := moved (a := first) (by omega) (by omega)
  have lastMoved := moved (a := last) (by omega) (by omega)
  simp only [relativeTo, crlf, hfirst, hlast, Int.toNat_natCast, firstMoved, lastMoved]

theorem Edit.Located.crlf (located : e.Located 0 bs.length) :
    (e.crlf bs).Located 0 (crlfBytes bs).length := by
  obtain ⟨first, last, hfirst, hlast, _, order, upper⟩ := located
  refine ⟨crlfOffset bs first, crlfOffset bs last, ?_, ?_, Nat.zero_le _,
    crlfOffset_le_iff.2 order, crlfOffset_le_length upper⟩
  · rw [Edit.crlf, hfirst, Int.toNat_natCast]
  · rw [Edit.crlf, hlast, Int.toNat_natCast]

theorem applyEdits_append {more : List UInt8} (located : ∀ e ∈ es, e.Located 0 bs.length) :
    (applyEdits (bs ++ more) es).toOption = (applyEdits bs es).toOption.map (· ++ more) :=
  splice_append (Nat.zero_le _)
    (fun e he => located e (mem_inOrder.1 he)) more

/-- The edits in a part of a text, seen from where it begins. -/
theorem relative_crlf {start stop stop' : Nat} {tail : String} (ends : Ends bs stop stop' tail)
    (located : ∀ e ∈ es, e.Located 0 bs.length) :
    ((es.map (·.crlf bs)).filter (·.within (crlfOffset bs start : Nat) stop')).map
        (·.relativeTo (crlfOffset bs start : Nat)) =
      ((es.filter (·.within start stop)).map (·.relativeTo start)).map
        (·.crlf ((bs.drop start).take (stop - start))) := by
  rw [List.filter_map, List.map_map, List.map_map]
  have same : es.filter ((fun e => e.within (crlfOffset bs start : Nat) stop') ∘ (·.crlf bs)) =
      es.filter (·.within start stop) :=
    List.filter_congr fun e he => Edit.within_crlf ends (located e he)
  rw [same]
  refine List.map_congr_left fun e he => ?_
  obtain ⟨he, inside⟩ := List.mem_filter.1 he
  exact Edit.relativeTo_crlf (located e he) inside

theorem located_relative (start : Nat) {stop : Nat} (size : stop ≤ bs.length)
    (located : ∀ e ∈ es, e.Located 0 bs.length) :
    ∀ e ∈ (es.filter (·.within start stop)).map (·.relativeTo start),
      e.Located 0 ((bs.drop start).take (stop - start)).length := by
  intro m hm
  obtain ⟨e, he, rfl⟩ := List.mem_map.1 hm
  obtain ⟨he, inside⟩ := List.mem_filter.1 he
  obtain ⟨first, last, hfirst, hlast, _, order, upper⟩ := located e he
  rw [Edit.within, Bool.and_eq_true, decide_eq_true_eq, decide_eq_true_eq] at inside
  have length : ((bs.drop start).take (stop - start)).length = stop - start := by
    rw [List.length_take, List.length_drop]
    omega
  refine ⟨first - start, last - start, ?_, ?_, Nat.zero_le _, by omega, by omega⟩
  · show e.start - start = _
    omega
  · show e.stop - start = _
    omega

/-- The text between two offsets with edits made in it is the same text with carriage returns. -/
theorem sliceWithEdits_crlfBytes {start stop stop' : Nat} {tail : String}
    (ends : Ends bs stop stop' tail) (order : start ≤ stop) (size : stop ≤ bs.length)
    (located : ∀ e ∈ es, e.Located 0 bs.length) :
    (sliceWithEdits (crlfBytes bs) (crlfOffset bs start : Nat) stop'
        (es.map (·.crlf bs))).toOption =
      (sliceWithEdits bs start stop es).toOption.map (crlfText · ++ tail) := by
  have inside := located_relative start size located
  have made : (applyEdits (between (crlfBytes bs) (crlfOffset bs start : Nat) stop')
      (((es.map (·.crlf bs)).filter (·.within (crlfOffset bs start : Nat) stop')).map
        (·.relativeTo (crlfOffset bs start : Nat)))).toOption =
      (applyEdits (between bs start stop)
        ((es.filter (·.within start stop)).map (·.relativeTo start))).toOption.map
          fun bytes => crlfBytes bytes ++ encode tail := by
    rw [relative_crlf ends located, between_natCast _ order size,
      between_natCast _ (ends.crlfOffset_le_iff.2 order) (ends.le_length size), ends.take_drop order,
      applyEdits_append fun e he => ?_, applyEdits_crlfBytes inside, Option.map_map]
    · rfl
    · obtain ⟨m, hm, rfl⟩ := List.mem_map.1 he
      exact (inside m hm).crlf
  rw [sliceWithEdits, sliceWithEdits]
  cases applied : applyEdits (between bs start stop)
    ((es.filter (·.within start stop)).map (·.relativeTo start)) <;>
  cases applied' : applyEdits (between (crlfBytes bs) (crlfOffset bs start : Nat) stop')
      (((es.map (·.crlf bs)).filter (·.within (crlfOffset bs start : Nat) stop')).map
        (·.relativeTo (crlfOffset bs start : Nat))) <;>
    rw [applied, applied'] at made
  · rfl
  · cases made
  · cases made
  · rename_i bytes bytes'
    obtain rfl : bytes' = crlfBytes bytes ++ encode tail := Option.some.inj made
    show some (String.ofList _) = some (crlfText (String.ofList _) ++ tail)
    rw [ends.decodeLossy, decodeLossy_crlfBytes, String.ofList_append, crlfText,
      String.toList_ofList, String.ofList_toList]

end MonoTap.Text

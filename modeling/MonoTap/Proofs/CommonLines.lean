import MonoTap.Diff.Operation

/-!
# Common lines

The blocks that two texts have in common hold equal lines and stand in the same order in both. So the
operations between them lead from the one text to the other, and the groups of a diff leave out nothing
but lines that both texts have.
-/

set_option autoImplicit false

namespace MonoTap.Diff

variable {old new : Array Line} {a b c d e f i j k l m n : Nat}

/-! ### Equal lines -/

/-- Whether `k` lines from `i` on in one text are the lines from `j` on in the other. -/
structure Same (old new : Array Line) (i j k : Nat) : Prop where
  fits : i + k ≤ old.size
  fits' : j + k ≤ new.size
  eq : ∀ t < k, old[i + t]? = new[j + t]?

namespace Same

theorem zero (hi : i ≤ old.size) (hj : j ≤ new.size) : Same old new i j 0 :=
  ⟨hi, hj, fun t ht => absurd ht (Nat.not_lt_zero t)⟩

theorem append (h : Same old new i j k) (h' : Same old new (i + k) (j + k) l) :
    Same old new i j (k + l) := by
  refine ⟨Nat.add_assoc i k l ▸ h'.fits, Nat.add_assoc j k l ▸ h'.fits', fun t ht => ?_⟩
  by_cases first : t < k
  · exact h.eq t first
  · have later := h'.eq (t - k) (by omega)
    rwa [show i + k + (t - k) = i + t by omega, show j + k + (t - k) = j + t by omega] at later

theorem take (h : Same old new i j k) (less : l ≤ k) : Same old new i j l :=
  ⟨by have := h.fits; omega, by have := h.fits'; omega, fun t ht => h.eq t (by omega)⟩

theorem drop (h : Same old new i j k) (less : l ≤ k) : Same old new (i + l) (j + l) (k - l) :=
  ⟨by have := h.fits; omega, by have := h.fits'; omega, fun t ht => by
    rw [Nat.add_assoc, Nat.add_assoc]
    exact h.eq (l + t) (by omega)⟩

/-- Equal lines are the same piece of both texts. -/
theorem extract_eq (h : Same old new i j k) :
    (old.extract i (i + k)).toList = (new.extract j (j + k)).toList := by
  refine List.ext_getElem? fun t => ?_
  rw [Array.getElem?_toList, Array.getElem?_toList, Array.getElem?_extract, Array.getElem?_extract,
    Nat.min_eq_left h.fits, Nat.min_eq_left h.fits', Nat.add_sub_cancel_left, Nat.add_sub_cancel_left]
  split
  · exact h.eq t ‹_›
  · rfl

end Same

/-- A line of a piece of a text. -/
theorem getElem?_piece {text : Array Line} {t : Nat} (fits : m ≤ text.size) (h : t < m - i) :
    (text.extract i m).toList[t]? = text[i + t]? := by
  rw [Array.getElem?_toList, Array.getElem?_extract, Nat.min_eq_left fits, if_pos h]

theorem length_piece {text : Array Line} (fits : m ≤ text.size) :
    (text.extract i m).toList.length = m - i := by
  rw [Array.length_toList, Array.size_extract, Nat.min_eq_left fits]

theorem commonLength_le (xs ys : List Line) :
    commonLength xs ys ≤ xs.length ∧ commonLength xs ys ≤ ys.length := by
  fun_induction commonLength xs ys with
  | case1 x xs y ys equal ih =>
    rw [List.length_cons, List.length_cons]
    omega
  | case2 => exact ⟨Nat.zero_le _, Nat.zero_le _⟩
  | case3 => exact ⟨Nat.zero_le _, Nat.zero_le _⟩

theorem getElem?_of_lt_commonLength {xs ys : List Line} {t : Nat} (h : t < commonLength xs ys) :
    xs[t]? = ys[t]? := by
  have same : (xs.take (commonLength xs ys))[t]? = (ys.take (commonLength xs ys))[t]? := by
    rw [take_commonLength]
  rwa [List.getElem?_take_of_lt h, List.getElem?_take_of_lt h] at same

/-- The equal lines at the starts of two pieces. -/
theorem same_after (hi : i ≤ m) (hj : j ≤ n) (hm : m ≤ old.size) (hn : n ≤ new.size) :
    let after := commonLength (old.extract i m).toList (new.extract j n).toList
    i + after ≤ m ∧ j + after ≤ n ∧ Same old new i j after := by
  intro after
  obtain ⟨short, short'⟩ := commonLength_le (old.extract i m).toList (new.extract j n).toList
  rw [length_piece hm] at short
  rw [length_piece hn] at short'
  refine ⟨by omega, by omega, by omega, by omega, fun t ht => ?_⟩
  have equal := getElem?_of_lt_commonLength ht
  rwa [getElem?_piece hm (by omega), getElem?_piece hn (by omega)] at equal

/-- The equal lines at the ends of two pieces. -/
theorem same_before (hi : i ≤ m) (hj : j ≤ n) (hm : m ≤ old.size) (hn : n ≤ new.size) :
    let before := commonLength (old.extract i m).toList.reverse (new.extract j n).toList.reverse
    i + before ≤ m ∧ j + before ≤ n ∧ Same old new (m - before) (n - before) before := by
  intro before
  obtain ⟨short, short'⟩ := commonLength_le (old.extract i m).toList.reverse
    (new.extract j n).toList.reverse
  rw [List.length_reverse, length_piece hm] at short
  rw [List.length_reverse, length_piece hn] at short'
  refine ⟨by omega, by omega, by omega, by omega, fun t ht => ?_⟩
  have equal := getElem?_of_lt_commonLength (t := before - 1 - t) (show before - 1 - t < before by omega)
  rw [List.getElem?_reverse (by rw [length_piece hm]; omega),
    List.getElem?_reverse (by rw [length_piece hn]; omega), length_piece hm, length_piece hn,
    getElem?_piece hm (by omega), getElem?_piece hn (by omega)] at equal
  rwa [show i + (m - i - 1 - (before - 1 - t)) = m - before + t by omega,
    show j + (n - j - 1 - (before - 1 - t)) = n - before + t by omega] at equal

/-! ### Blocks -/

/-- Whether a window lies in two texts. -/
structure Window.Fits (old new : Array Line) (w : Window) : Prop where
  ordered : w.oldStart ≤ w.oldStop
  ordered' : w.newStart ≤ w.newStop
  fits : w.oldStop ≤ old.size
  fits' : w.newStop ≤ new.size

/-- Whether a block stands in a window and holds equal lines. -/
structure Block.Inside (old new : Array Line) (w : Window) (b : Block) : Prop where
  oldStart : w.oldStart ≤ b.old
  oldStop : b.old + b.size ≤ w.oldStop
  newStart : w.newStart ≤ b.new
  newStop : b.new + b.size ≤ w.newStop
  same : Same old new b.old b.new b.size

/-- Whether runs with their lengths all end before line `i` of the old text, in a window, and hold equal
lines. -/
def Ends (old new : Array Line) (w : Window) (i : Nat) (runs : List (Nat × Nat)) : Prop :=
  ∀ run ∈ runs, w.newStart ≤ run.1 ∧ run.1 < w.newStop ∧ 0 < run.2 ∧ w.oldStart + run.2 ≤ i ∧
    w.newStart + run.2 ≤ run.1 + 1 ∧ Same old new (i - run.2) (run.1 + 1 - run.2) run.2

variable {w : Window} {best : Block} {runs earlier : List (Nat × Nat)} {line : Line}

theorem getElem?_of_mem_positionsOf (h : j ∈ positionsOf new line) : new[j]? = some line := by
  rw [positionsOf] at h
  split at h
  · cases h
  · exact beq_iff_eq.1 (List.mem_filter.1 h).2

/-- The positions that are kept for a line of the old text are those of equal lines. -/
theorem eq_of_mem_placesIn (h : j ∈ ((placesIn old new)[i]?).getD []) :
    old[i]? = new[j]? ∧ i < old.size ∧ j < new.size := by
  rw [placesIn, Array.getElem?_map] at h
  cases here : old[i]? with
  | none =>
    rw [here] at h
    cases h
  | some line =>
    rw [here] at h
    have there := getElem?_of_mem_positionsOf h
    exact ⟨there.symm, (Array.getElem?_eq_some_iff.1 here).1, (Array.getElem?_eq_some_iff.1 there).1⟩

/-- The runs that end at a line hold equal lines if those that end one line earlier do. -/
theorem ends_runsAt (h : Ends old new w i earlier) (start : w.oldStart ≤ i) :
    Ends old new w (i + 1) (runsAt w earlier (((placesIn old new)[i]?).getD [])) := by
  intro run hrun
  rw [runsAt] at hrun
  obtain ⟨j, hj, rfl⟩ := List.mem_map.1 hrun
  obtain ⟨place, inside⟩ := List.mem_filter.1 hj
  rw [Bool.and_eq_true, decide_eq_true_eq, decide_eq_true_eq] at inside
  obtain ⟨equal, hi, hj⟩ := eq_of_mem_placesIn place
  have single : Same old new i j 1 := ⟨hi, hj, fun t ht => by
    rw [Nat.lt_one_iff.1 ht]
    exact equal⟩
  dsimp only
  cases found : earlier.find? fun run => run.1 + 1 == j with
  | none =>
    rw [Option.map_none, Option.getD_none]
    exact ⟨inside.1, inside.2, Nat.one_pos, by omega, by omega, single⟩
  | some run =>
    obtain ⟨k, size⟩ := run
    have next := List.find?_some found
    rw [beq_iff_eq] at next
    obtain ⟨_, _, positive, before, before', same⟩ := h _ (List.mem_of_find?_eq_some found)
    dsimp only at positive before before' same
    rw [Option.map_some, Option.getD_some]
    refine ⟨inside.1, inside.2, Nat.succ_pos size, by omega, by omega, ?_⟩
    rw [show i + 1 - (size + 1) = i - size by omega, show j + 1 - (size + 1) = k + 1 - size by omega]
    refine same.append ?_
    rwa [show i - size + size = i by omega, show k + 1 - size + size = j by omega]

theorem inside_longerRun (h : best.Inside old new w) (ends : Ends old new w (i + 1) runs)
    (stop : i < w.oldStop) : (longerRun i best runs).Inside old new w := by
  induction runs generalizing best with
  | nil => exact h
  | cons run runs ih =>
    rw [longerRun, List.foldl_cons, ← longerRun]
    refine ih ?_ fun other mem => ends other (List.mem_cons_of_mem run mem)
    dsimp only
    split
    · obtain ⟨start, stop', _, before, before', same⟩ := ends run List.mem_cons_self
      exact ⟨by dsimp only; omega, by dsimp only; omega, by dsimp only; omega, by dsimp only; omega, same⟩
    · exact h

theorem inside_longestRun (fits : w.Fits old new) :
    (longestRun (placesIn old new) w).Inside old new w := by
  have rows (count i : Nat) (best : Block) (earlier : List (Nat × Nat)) (start : w.oldStart ≤ i)
      (stop : i + count ≤ w.oldStop) (h : best.Inside old new w) (ends : Ends old new w i earlier) :
      ((List.range' i count).foldl (fun found i =>
        let runs := runsAt w found.2 (((placesIn old new)[i]?).getD [])
        (longerRun i found.1 runs, runs)) (best, earlier)).1.Inside old new w := by
    induction count generalizing i best earlier with
    | zero => exact h
    | succ count ih =>
      rw [List.range'_succ, List.foldl_cons]
      have next := ends_runsAt ends start
      exact ih (i + 1) _ _ (by omega) (by omega) (inside_longerRun h next (by omega)) next
  refine rows _ _ _ _ (Nat.le_refl _) (by have := fits.ordered; omega) ?_ nofun
  exact ⟨Nat.le_refl _, fits.ordered, Nat.le_refl _, fits.ordered',
    .zero (Nat.le_trans fits.ordered fits.fits) (Nat.le_trans fits.ordered' fits.fits')⟩

theorem inside_extend (fits : w.Fits old new) (h : best.Inside old new w) :
    (extend old new w best).Inside old new w := by
  have hold := h.oldStop
  have hnew := h.newStop
  have hsize := h.same.fits
  have hsize' := h.same.fits'
  obtain ⟨room, room', front⟩ := same_before h.oldStart h.newStart (Nat.le_of_add_right_le hsize)
    (Nat.le_of_add_right_le hsize')
  obtain ⟨left, left', back⟩ := same_after h.oldStop h.newStop fits.fits fits.fits'
  rw [extend]
  generalize commonLength _ _ = before at room room' front ⊢
  generalize commonLength _ _ = after at left left' back ⊢
  have whole : Same old new (best.old - before) (best.new - before) (before + best.size + after) := by
    refine (front.append ?_).append ?_
    · rw [Nat.sub_add_cancel (by omega), Nat.sub_add_cancel (by omega)]
      exact h.same
    · rwa [show best.old - before + (before + best.size) = best.old + best.size by omega,
        show best.new - before + (before + best.size) = best.new + best.size by omega]
  exact ⟨by dsimp only; omega, by dsimp only; omega, by dsimp only; omega, by dsimp only; omega, whole⟩

/-- Blocks of equal lines that follow one another, from two positions up to two others. -/
inductive Ordered (old new : Array Line) : Nat → Nat → List Block → Nat → Nat → Prop
  | nil {a b c d : Nat} (ha : a ≤ c) (hb : b ≤ d) : Ordered old new a b [] c d
  | cons {a b c d : Nat} {x : Block} {xs : List Block} (ha : a ≤ x.old) (hb : b ≤ x.new)
      (same : Same old new x.old x.new x.size)
      (rest : Ordered old new (x.old + x.size) (x.new + x.size) xs c d) :
      Ordered old new a b (x :: xs) c d

namespace Ordered

variable {x : Block} {xs ys : List Block}

theorem weaken (h : Ordered old new c d xs e f) (ha : a ≤ c) (hb : b ≤ d) :
    Ordered old new a b xs e f := by
  cases h with
  | nil hc hd => exact .nil (Nat.le_trans ha hc) (Nat.le_trans hb hd)
  | cons hc hd same rest => exact .cons (Nat.le_trans ha hc) (Nat.le_trans hb hd) same rest

theorem append (h : Ordered old new a b xs c d) (h' : Ordered old new c d ys e f) :
    Ordered old new a b (xs ++ ys) e f := by
  induction h with
  | nil ha hb => exact h'.weaken ha hb
  | cons ha hb same _ ih => exact .cons ha hb same (ih h')

end Ordered

/-- The blocks in a window hold equal lines and follow one another. -/
theorem ordered_blocksIn (fits : w.Fits old new) :
    Ordered old new w.oldStart w.newStart (blocksIn old new (placesIn old new) w) w.oldStop
      w.newStop := by
  fun_induction blocksIn old new (placesIn old new) w with
  | case1 w b inside left right ihl ihr =>
    obtain ⟨oldStart, oldStop, newStart, newStop, same⟩ :=
      inside_extend fits (inside_longestRun fits)
    have before : Ordered old new w.oldStart w.newStart left b.old b.new := by
      dsimp only [left]
      split
      · exact ihl ⟨oldStart, newStart, Nat.le_trans (Nat.le_of_add_right_le oldStop) fits.fits,
          Nat.le_trans (Nat.le_of_add_right_le newStop) fits.fits'⟩
      · exact .nil oldStart newStart
    have after : Ordered old new (b.old + b.size) (b.new + b.size) right w.oldStop w.newStop := by
      dsimp only [right]
      split
      · exact ihr ⟨oldStop, newStop, fits.fits, fits.fits'⟩
      · exact .nil oldStop newStop
    exact before.append (.cons (Nat.le_refl _) (Nat.le_refl _) same after)
  | case2 w b outside => exact .nil fits.ordered fits.ordered'

/-- Blocks that touch may become one. -/
theorem ordered_joinTouching {xs : List Block} (h : Ordered old new a b xs c d) :
    Ordered old new a b (joinTouching xs) c d := by
  induction h with
  | nil ha hb => exact .nil ha hb
  | @cons a b c d x xs ha hb same rest ih =>
    rw [joinTouching]
    cases joined : joinTouching xs with
    | nil =>
      rw [joined] at ih
      exact .cons ha hb same ih
    | cons y ys =>
      rw [joined] at ih
      dsimp only
      split
      · rename_i touch
        rw [Bool.and_eq_true, beq_iff_eq, beq_iff_eq] at touch
        cases ih with
        | cons _ _ same' rest' =>
          refine .cons ha hb (same.append (by rw [touch.1, touch.2]; exact same')) ?_
          rwa [← Nat.add_assoc, ← Nat.add_assoc, touch.1, touch.2]
      · exact .cons ha hb same ih

theorem ordered_commonBlocks (old new : Array Line) :
    Ordered old new 0 0 (commonBlocks old new) old.size new.size :=
  have fits : Window.Fits old new ⟨0, old.size, 0, new.size⟩ :=
    ⟨Nat.zero_le _, Nat.zero_le _, Nat.le_refl _, Nat.le_refl _⟩
  ordered_joinTouching (ordered_blocksIn fits)

/-! ### Operations -/

/-- Whether an operation is about lines of the two texts and does what its tag says. -/
structure Operation.Sound (old new : Array Line) (o : Operation) : Prop where
  ordered : o.oldStart ≤ o.oldStop
  ordered' : o.newStart ≤ o.newStop
  fits : o.oldStop ≤ old.size
  fits' : o.newStop ≤ new.size
  keep : o.tag = .keep → o.oldStop - o.oldStart = o.newStop - o.newStart ∧
    Same old new o.oldStart o.newStart (o.oldStop - o.oldStart)
  delete : o.tag = .delete → o.newStart = o.newStop
  insert : o.tag = .insert → o.oldStart = o.oldStop

/-- Operations that follow one another, from two positions to two others. -/
inductive Chain (old new : Array Line) : Nat → Nat → List Operation → Nat → Nat → Prop
  | nil {a b : Nat} : Chain old new a b [] a b
  | cons {a b c d : Nat} {o : Operation} {os : List Operation} (sound : o.Sound old new)
      (ha : o.oldStart = a) (hb : o.newStart = b) (rest : Chain old new o.oldStop o.newStop os c d) :
      Chain old new a b (o :: os) c d

variable {o : Operation} {os current : List Operation}

namespace Chain

theorem single (ha : o.oldStart = a) (hb : o.newStart = b) (hc : o.oldStop = c) (hd : o.newStop = d)
    (sound : o.Sound old new) : Chain old new a b [o] c d := by
  subst hc hd
  exact .cons sound ha hb .nil

theorem append {os' : List Operation} (h : Chain old new a b os c d)
    (h' : Chain old new c d os' e f) : Chain old new a b (os ++ os') e f := by
  induction h with
  | nil => exact h'
  | cons sound ha hb _ ih => exact .cons sound ha hb (ih h')

theorem le (h : Chain old new a b os c d) : a ≤ c ∧ b ≤ d := by
  induction h with
  | nil => exact ⟨Nat.le_refl _, Nat.le_refl _⟩
  | cons sound ha hb _ ih =>
    have ordered := sound.ordered
    have ordered' := sound.ordered'
    exact ⟨by omega, by omega⟩

/-- No operation of a chain ends after it. -/
theorem stop_le (h : Chain old new a b os c d) : ∀ o ∈ os, o.oldStop ≤ c ∧ o.newStop ≤ d := by
  induction h with
  | nil => exact fun o mem => absurd mem List.not_mem_nil
  | cons sound ha hb rest ih =>
    intro o mem
    rcases List.mem_cons.1 mem with rfl | mem
    · exact rest.le
    · exact ih o mem

/-- The first operation of a chain begins and the last one ends where the chain does. -/
theorem ends (h : Chain old new a b os c d) (some : os ≠ []) :
    ∃ first last, os.head? = Option.some first ∧ os.getLast? = Option.some last ∧
      first.oldStart = a ∧ first.newStart = b ∧ last.oldStop = c ∧ last.newStop = d := by
  induction h with
  | nil => exact absurd rfl some
  | @cons a b c d o os sound ha hb rest ih =>
    cases os with
    | nil =>
      cases rest
      exact ⟨o, o, rfl, rfl, ha, hb, rfl, rfl⟩
    | cons next os =>
      obtain ⟨_, last, _, hlast, _, _, stop, stop'⟩ := ih (List.cons_ne_nil next os)
      exact ⟨o, last, rfl, by rw [List.getLast?_cons_cons, hlast], ha, hb, stop, stop'⟩

end Chain

theorem chain_gap {x : Block} (ha : a ≤ x.old) (hb : b ≤ x.new) (fits : x.old ≤ old.size)
    (fits' : x.new ≤ new.size) : Chain old new a b (gap a b x) x.old x.new := by
  rw [gap]
  split
  · refine .single rfl rfl rfl rfl ?_
    exact ⟨ha, hb, fits, fits', nofun, nofun, nofun⟩
  · split
    · rename_i both less
      rw [Bool.and_eq_true, decide_eq_true_eq, decide_eq_true_eq, not_and] at both
      have same : b = x.new := Nat.le_antisymm hb (Nat.le_of_not_lt (both less))
      refine .single rfl rfl rfl rfl ?_
      exact ⟨ha, hb, fits, fits', nofun, fun _ => same, nofun⟩
    · split
      · rename_i more less
        have same : a = x.old := Nat.le_antisymm ha (Nat.le_of_not_lt more)
        refine .single rfl rfl rfl rfl ?_
        exact ⟨ha, hb, fits, fits', nofun, nofun, fun _ => same⟩
      · rename_i more more'
        rw [Nat.le_antisymm ha (Nat.le_of_not_lt more), Nat.le_antisymm hb (Nat.le_of_not_lt more')]
        exact .nil

/-- The operations between and on blocks lead through the texts. -/
theorem chain_operationsFrom {xs : List Block} (h : Ordered old new a b xs c d) (hc : c ≤ old.size)
    (hd : d ≤ new.size) : Chain old new a b (operationsFrom a b (xs ++ [⟨c, d, 0⟩])) c d := by
  induction h with
  | nil ha hb =>
    rw [List.nil_append, operationsFrom, operationsFrom, List.append_nil,
      if_neg (Nat.lt_irrefl 0), List.append_nil]
    exact chain_gap ha hb hc hd
  | @cons a b c d x xs ha hb same rest ih =>
    rw [List.cons_append, operationsFrom]
    refine ((chain_gap ha hb (Nat.le_of_add_right_le same.fits)
      (Nat.le_of_add_right_le same.fits')).append ?_).append (ih hc hd)
    split
    · refine .single rfl rfl rfl rfl ?_
      refine ⟨Nat.le_add_right _ _, Nat.le_add_right _ _, same.fits, same.fits', fun _ => ?_, nofun,
        nofun⟩
      dsimp only
      rw [Nat.add_sub_cancel_left, Nat.add_sub_cancel_left]
      exact ⟨rfl, same⟩
    · have none : x.size = 0 := by omega
      rw [none]
      exact .nil

theorem chain_operations (old new : Array Line) :
    Chain old new 0 0 (operations old new) old.size new.size :=
  chain_operationsFrom (ordered_commonBlocks old new) (Nat.le_refl _) (Nat.le_refl _)

/-! ### Shortened operations -/

namespace Operation

/-- The last lines of an operation that keeps lines, and the lines before them. -/
theorem Sound.tail (h : o.Sound old new) (keep : o.tag = .keep) (n : Nat) :
    (o.tail n).Sound old new ∧ ∃ k, (o.tail n).oldStart = o.oldStart + k ∧
      (o.tail n).newStart = o.newStart + k ∧ Same old new o.oldStart o.newStart k := by
  obtain ⟨even, same⟩ := h.keep keep
  have ordered := h.ordered
  have ordered' := h.ordered'
  obtain ⟨k, hk⟩ : ∃ k, k = (o.oldStop - o.oldStart) - n := ⟨_, rfl⟩
  have start : (o.tail n).oldStart = o.oldStart + k := by
    show max o.oldStart (o.oldStop - n) = _
    omega
  have start' : (o.tail n).newStart = o.newStart + k := by
    show max o.newStart (o.newStop - n) = _
    omega
  refine ⟨⟨?_, ?_, h.fits, h.fits', fun _ => ?_, fun h => ?_, fun h => ?_⟩, k, start, start',
    same.take (by omega)⟩
  · rw [start]
    show _ ≤ o.oldStop
    omega
  · rw [start']
    show _ ≤ o.newStop
    omega
  · rw [start, start']
    show o.oldStop - _ = o.newStop - _ ∧ Same old new _ _ (o.oldStop - _)
    rw [show o.oldStop - (o.oldStart + k) = o.oldStop - o.oldStart - k by omega]
    exact ⟨by omega, same.drop (by omega)⟩
  · cases keep.symm.trans h
  · cases keep.symm.trans h

/-- The first lines of an operation that keeps lines, and the lines after them. -/
theorem Sound.head (h : o.Sound old new) (keep : o.tag = .keep) (n : Nat) :
    (o.head n).Sound old new ∧ ∃ k, (o.head n).oldStop + k = o.oldStop ∧
      (o.head n).newStop + k = o.newStop ∧ Same old new (o.head n).oldStop (o.head n).newStop k := by
  obtain ⟨even, same⟩ := h.keep keep
  have ordered := h.ordered
  have ordered' := h.ordered'
  have fits := h.fits
  have fits' := h.fits'
  obtain ⟨k, hk⟩ : ∃ k, k = (o.oldStop - o.oldStart) - n := ⟨_, rfl⟩
  have stop : (o.head n).oldStop = o.oldStop - k := by
    show min o.oldStop (o.oldStart + n) = _
    omega
  have stop' : (o.head n).newStop = o.newStop - k := by
    show min o.newStop (o.newStart + n) = _
    omega
  refine ⟨⟨?_, ?_, ?_, ?_, fun _ => ?_, fun h => ?_, fun h => ?_⟩, k, ?_, ?_, ?_⟩
  · rw [stop]
    show o.oldStart ≤ _
    omega
  · rw [stop']
    show o.newStart ≤ _
    omega
  · rw [stop]
    omega
  · rw [stop']
    omega
  · rw [stop, stop']
    show o.oldStop - k - o.oldStart = o.newStop - k - o.newStart ∧
      Same old new o.oldStart o.newStart (o.oldStop - k - o.oldStart)
    exact ⟨by omega, same.take (by omega)⟩
  · cases keep.symm.trans h
  · cases keep.symm.trans h
  · rw [stop]
    omega
  · rw [stop']
    omega
  · rw [stop, stop']
    have back := same.drop (show o.oldStop - o.oldStart - k ≤ _ from Nat.sub_le _ _)
    rwa [show o.oldStart + (o.oldStop - o.oldStart - k) = o.oldStop - k by omega,
      show o.newStart + (o.oldStop - o.oldStart - k) = o.newStop - k by omega,
      show o.oldStop - o.oldStart - (o.oldStop - o.oldStart - k) = k by omega] at back

end Operation

theorem chain_shortenFirst (h : Chain old new a b os c d) (ha : a ≤ old.size) (hb : b ≤ new.size)
    (n : Nat) : ∃ k, Same old new a b k ∧ Chain old new (a + k) (b + k) (shortenFirst n os) c d := by
  cases h with
  | nil => exact ⟨0, .zero ha hb, .nil⟩
  | @cons _ _ _ _ o os sound ho ho' rest =>
    subst ho ho'
    rw [shortenFirst]
    split
    · rename_i keep
      obtain ⟨short, k, start, start', same⟩ := sound.tail (beq_iff_eq.1 keep) n
      exact ⟨k, same, .cons short start start' rest⟩
    · exact ⟨0, .zero ha hb, .cons sound rfl rfl rest⟩

theorem chain_shortenLast (h : Chain old new a b os c d) (hc : c ≤ old.size) (hd : d ≤ new.size)
    (n : Nat) : ∃ e f k, Chain old new a b (shortenLast n os) e f ∧ e + k = c ∧ f + k = d ∧
      Same old new e f k := by
  induction h with
  | nil => exact ⟨_, _, 0, .nil, rfl, rfl, .zero hc hd⟩
  | @cons a b c d o os sound ho ho' rest ih =>
    cases os with
    | nil =>
      rw [shortenLast]
      cases rest
      split
      · rename_i keep
        obtain ⟨short, k, stop, stop', same⟩ := sound.head (beq_iff_eq.1 keep) n
        exact ⟨_, _, k, .cons short ho ho' .nil, stop, stop', same⟩
      · exact ⟨_, _, 0, .cons sound ho ho' .nil, rfl, rfl, .zero hc hd⟩
    | cons o' os =>
      rw [shortenLast]
      · obtain ⟨e, f, k, chain, stop, stop', same⟩ := ih hc hd
        exact ⟨e, f, k, .cons sound ho ho' chain, stop, stop', same⟩
      · exact fun h => List.cons_ne_nil _ _ h

/-! ### Groups -/

/-- Groups of operations that lead from two positions to the ends of two texts, with equal lines before,
between and after them. -/
inductive Grouped (old new : Array Line) : Nat → Nat → List (List Operation) → Prop
  | nil {a b k : Nat} (same : Same old new a b k) (ha : a + k = old.size) (hb : b + k = new.size) :
      Grouped old new a b []
  | cons {a b c d k : Nat} {group : List Operation} {groups : List (List Operation)}
      (same : Same old new a b k) (chain : Chain old new (a + k) (b + k) group c d)
      (rest : Grouped old new c d groups) : Grouped old new a b (group :: groups)

theorem Grouped.before {gs : List (List Operation)} (h : Grouped old new (a + k) (b + k) gs)
    (same : Same old new a b k) : Grouped old new a b gs := by
  cases h with
  | nil same' ha hb =>
    exact .nil (same.append same') (by rw [← Nat.add_assoc]; exact ha) (by rw [← Nat.add_assoc]; exact hb)
  | cons same' chain rest =>
    refine .cons (same.append same') ?_ rest
    rwa [← Nat.add_assoc, ← Nat.add_assoc]

/-- Cutting operations into groups leaves out lines that both texts have. -/
theorem grouped_cut (h : Chain old new c d os e f) (before : Chain old new (a + k) (b + k) current.reverse c d)
    (same : Same old new a b k) (after : Same old new e f l) (he : e + l = old.size)
    (hf : f + l = new.size) (n : Nat) : Grouped old new a b (cut n current os) := by
  induction h generalizing a b k current with
  | nil => exact .cons same before (.nil after he hf)
  | @cons c d e f o os sound ho ho' rest ih =>
    subst ho ho'
    rw [cut]
    split
    · rename_i long
      rw [Bool.and_eq_true, beq_iff_eq, decide_eq_true_eq] at long
      obtain ⟨tail, t, start, start', _⟩ := sound.tail long.1 n
      obtain ⟨head, s, stop, stop', between⟩ := sound.head long.1 n
      have ordered := sound.ordered
      have even := (sound.keep long.1).1
      have first : (o.head n).oldStop = o.oldStart + n := by
        show min o.oldStop (o.oldStart + n) = _
        omega
      have last : (o.tail n).oldStart = o.oldStop - n := by
        show max o.oldStart (o.oldStop - n) = _
        omega
      obtain ⟨gap, hgap⟩ : ∃ gap, (o.head n).oldStop + gap = (o.tail n).oldStart := ⟨_, Nat.add_sub_cancel'
        (by omega)⟩
      have hgap' : (o.head n).newStop + gap = (o.tail n).newStart := by omega
      refine .cons same ?_ (ih ?_ (between.take (show gap ≤ s by omega)) after he hf)
      · rw [List.reverse_cons]
        exact before.append (.single rfl rfl rfl rfl head)
      · rw [hgap, hgap']
        exact .single rfl rfl rfl rfl tail
    · refine ih ?_ same after he hf
      rw [List.reverse_cons]
      exact before.append (.single rfl rfl rfl rfl sound)

/-- A group in which nothing changes may be left out. -/
theorem grouped_filter {gs : List (List Operation)} (h : Grouped old new a b gs) :
    Grouped old new a b (gs.filter changes) := by
  induction h with
  | nil same ha hb => exact .nil same ha hb
  | @cons a b c d k group groups same chain rest ih =>
    rw [List.filter_cons]
    split
    · exact .cons same chain ih
    · rename_i still
      refine Grouped.before ?_ same
      cases chain with
      | nil => exact ih
      | @cons _ _ _ _ o os sound ho ho' next =>
        cases os with
        | nil =>
          cases next
          have keep : o.tag = .keep := by
            rw [changes, bne_iff_ne] at still
            exact Decidable.not_not.1 still
          obtain ⟨even, kept⟩ := sound.keep keep
          have ordered := sound.ordered
          have ordered' := sound.ordered'
          rw [← ho, ← ho']
          refine Grouped.before ?_ kept
          rwa [show o.oldStart + (o.oldStop - o.oldStart) = o.oldStop by omega,
            show o.newStart + (o.oldStop - o.oldStart) = o.newStop by omega]
        | cons o' os => exact absurd rfl still

/-- The groups of a diff lead from one text to the other. -/
theorem grouped_groups (n : Nat) (old new : Array Line) : Grouped old new 0 0 (groups n old new) := by
  obtain ⟨k, same, chain⟩ := chain_shortenFirst (chain_operations old new) (Nat.zero_le _)
    (Nat.zero_le _) n
  obtain ⟨e, f, l, chain, he, hf, after⟩ := chain_shortenLast chain (Nat.le_refl _) (Nat.le_refl _) n
  have start : Chain old new (0 + k) (0 + k) [].reverse (0 + k) (0 + k) := .nil
  exact grouped_filter (grouped_cut chain start same after he hf n)

end MonoTap.Diff

import MonoTap.Migration.Report
import MonoTap.Proofs.RoundingErrors

/-!
# Mean scores

The mean of scores is within some roundings of the exact one, and so it lies between the least and the
greatest score but for a relative error that grows with the number of scores. A run in which no file has
diagnostics is shown with the score of its files; whether the mean is below that score, and the run in the
tier below, depends on the number of the files.
-/

set_option autoImplicit false

namespace MonoTap.Lane

open Document (Value)
open Number (Binary64 Near roundoff)
open Number.Binary64 (Approx reach)

/-! ### Scores and weights -/

/-- The number that was given. -/
def Scalar.value : Scalar → ℚ
  | .whole n => n
  | .real x => x.value

/-- The scores and weights that means are looked at for reach from the inverse of this number to it. -/
def usual : ℚ := 2 ^ 200

/-- A number that is finite, not below zero, and zero or neither too small nor too large. -/
structure Scalar.Usual (x : Scalar) : Prop where
  size : match x with
    | .whole n => 0 ≤ n
    | .real x => x.IsSize
  wide : x.value = 0 ∨ 1 / usual ≤ x.value
  small : x.value ≤ usual

theorem large_usual : 2 ^ 60 ≤ usual := by norm_num [usual]

theorem usual_pos : 0 < usual := lt_of_lt_of_le (by norm_num) large_usual

/-- Sums of products of usual numbers, and quotients of such sums, are within reach. -/
theorem mul_usual_le_reach : 2 ^ 60 * usual ^ 4 ≤ reach := by
  have five : reach = usual ^ 5 := by rw [Number.Binary64.reach_eq, usual]
  have pos := usual_pos
  rw [five, pow_succ usual 4, mul_comm]
  exact mul_le_mul_of_nonneg_left large_usual (pow_pos pos 4).le

variable {x y score weight : Scalar} {k : ℕ} {sums : Sums} {total weights : ℚ}

namespace Scalar.Usual

theorem nonneg (h : x.Usual) : 0 ≤ x.value := by
  cases x with
  | whole n => exact Int.cast_nonneg h.size
  | real x => exact Binary64.IsSize.value_nonneg h.size

theorem small_reach (h : x.Usual) : x.value ≤ reach := by
  have far := mul_usual_le_reach
  have pos := usual_pos
  have large : usual ≤ 2 ^ 60 * usual ^ 4 := by
    calc usual = 1 * usual := (one_mul _).symm
      _ ≤ 2 ^ 60 * usual ^ 3 * usual :=
        mul_le_mul_of_nonneg_right (one_le_mul_of_one_le_of_one_le (by norm_num)
          (one_le_pow₀ (le_trans (by norm_num) large_usual))) pos.le
      _ = 2 ^ 60 * usual ^ 4 := by ring
  exact h.small.trans (large.trans far)

theorem approx (h : x.Usual) : Approx 1 x.toBinary64 x.value := by
  cases x with
  | whole n => exact Number.Binary64.approx_ofInt h.size h.small_reach
  | real x => exact (Number.Binary64.IsSize.approx h.size).mono (Nat.zero_le 1) h.nonneg

end Scalar.Usual

theorem isTooLarge_whole {n : ℤ} {v : ℚ} (h : Approx k (.ofInt n) v) :
    (Scalar.whole n).isTooLarge = false := by
  obtain ⟨negative, m, e, finite, _⟩ := h.size
  rw [Scalar.isTooLarge, finite]
  rfl

theorem Scalar.Usual.isTooLarge (h : x.Usual) : x.isTooLarge = false := by
  cases x with
  | whole n => exact isTooLarge_whole h.approx
  | real x => rfl

/-- The size of a product of usual numbers. -/
theorem mul_range (hx : x.Usual) (hy : y.Usual) :
    (x.value * y.value = 0 ∨ 1 / usual ^ 2 ≤ x.value * y.value) ∧ x.value * y.value ≤ usual ^ 2 := by
  have pos := usual_pos
  constructor
  · rcases hx.wide with none | least
    · exact .inl (by rw [none, zero_mul])
    · rcases hy.wide with none | least'
      · exact .inl (by rw [none, mul_zero])
      · refine .inr ?_
        calc 1 / usual ^ 2 = 1 / usual * (1 / usual) := by ring
          _ ≤ x.value * y.value := mul_le_mul least least' (by positivity) hx.nonneg
  · calc x.value * y.value ≤ usual * usual := mul_le_mul hx.small hy.small hy.nonneg pos.le
      _ = usual ^ 2 := (sq _).symm

/-- A few roundings leave a number zero or change it by a factor of two at most. -/
theorem range_of_near {a v least most : ℚ} (h : Near k a v) (few : k ≤ 2 ^ 52) (ha : 0 ≤ a)
    (hv : 0 ≤ v) (wide : v = 0 ∨ least ≤ v) (small : v ≤ most) :
    (a = 0 ∨ least / 2 ≤ a) ∧ a ≤ 2 * most := by
  have double := h.le_two_mul few ha
  have half := h.half_le few hv
  refine ⟨wide.imp (fun none => ?_) fun least => ?_, ?_⟩ <;> linarith

theorem usual_sq_le_reach : 4 * usual ^ 2 ≤ reach := by
  refine le_trans ?_ mul_usual_le_reach
  have pos := usual_pos
  have large : (1 : ℚ) ≤ usual ^ 2 := one_le_pow₀ (le_trans (by norm_num) large_usual)
  have room : 0 ≤ usual ^ 2 := by positivity
  calc 4 * usual ^ 2 = 4 * (usual ^ 2 * 1) := by ring
    _ ≤ 4 * (usual ^ 2 * usual ^ 2) :=
      mul_le_mul_of_nonneg_left (mul_le_mul_of_nonneg_left large room) (by norm_num)
    _ ≤ 2 ^ 60 * (usual ^ 2 * usual ^ 2) := mul_le_mul_of_nonneg_right (by norm_num) (by positivity)
    _ = 2 ^ 60 * usual ^ 4 := by ring

theorem one_div_reach_le {least : ℚ} (pos : 0 < least) (h : 1 / least ≤ reach) :
    1 / reach ≤ least := by
  rw [div_le_iff₀ pos] at h
  have far : 0 < reach := by
    rw [reach]
    positivity
  rw [div_le_iff₀ far]
  linarith

/-- A score times its weight is within three roundings of the exact product. -/
theorem weigh_near (hs : score.Usual) (hw : weight.Usual) :
    ∃ p, weigh score weight = .ok p ∧ p.isTooLarge = false ∧
      Approx 3 p.toBinary64 (score.value * weight.value) := by
  have pos := usual_pos
  obtain ⟨wide, small⟩ := mul_range hs hw
  have product : 0 ≤ score.value * weight.value := mul_nonneg hs.nonneg hw.nonneg
  have rounded : Approx 3 (score.toBinary64.mul weight.toBinary64) (score.value * weight.value) := by
    have hx := hs.approx
    have hy := hw.approx
    have near : Near 2 (score.toBinary64.value * weight.toBinary64.value) (score.value * weight.value) :=
      hx.near.mul hy.near hx.size.value_nonneg hy.size.value_nonneg hs.nonneg hw.nonneg
    obtain ⟨wide', small'⟩ := range_of_near near (by norm_num)
      (mul_nonneg hx.size.value_nonneg hy.size.value_nonneg) product wide small
    have far := usual_sq_le_reach
    have room : 0 < usual ^ 2 := by positivity
    refine (hx.size.approx_mul hy.size (wide'.imp_right fun least => le_trans ?_ least) ?_).trans near
    · refine one_div_reach_le (by positivity) ?_
      rw [one_div_div, one_div, div_inv_eq_mul]
      linarith
    · linarith
  have notTooLarge := hs.isTooLarge
  have notTooLarge' := hw.isTooLarge
  cases score with
  | real x =>
    refine ⟨.real (x.mul weight.toBinary64), ?_, rfl, rounded⟩
    show (if _ then _ else _) = _
    rw [notTooLarge, notTooLarge', Bool.or_false, if_neg Bool.false_ne_true]
    rfl
  | whole m =>
    cases weight with
    | real y =>
      refine ⟨.real ((Scalar.whole m).toBinary64.mul y), ?_, rfl, rounded⟩
      show (if _ then _ else _) = _
      rw [notTooLarge, notTooLarge', Bool.or_false, if_neg Bool.false_ne_true]
      rfl
    | whole n =>
      have whole : ((m * n : ℤ) : ℚ) = (Scalar.whole m).value * (Scalar.whole n).value :=
        Int.cast_mul m n
      have size : 0 ≤ m * n := mul_nonneg hs.size hw.size
      have near : Approx 1 (.ofInt (m * n)) _ :=
        Number.Binary64.approx_ofInt size (by
          rw [whole]
          have far := usual_sq_le_reach
          have room : 0 < usual ^ 2 := by positivity
          linarith)
      rw [whole] at near
      exact ⟨.whole (m * n), rfl, isTooLarge_whole near, near.mono (by norm_num) product⟩

/-! ### Sums -/

/-- Whether the sums of `k` scores and weights are within some roundings of the exact ones. -/
structure Sums.Follows (k : ℕ) (s : Sums) (total weights : ℚ) : Prop where
  scoresNear : Approx (k + 3) s.scores total
  weightsNear : Approx (k + 1) s.weights weights
  nonneg : 0 ≤ total
  wide : total = 0 ∨ 1 / usual ^ 2 ≤ total
  small : total ≤ k * usual ^ 2
  nonneg' : 0 ≤ weights
  small' : weights ≤ k * usual

theorem Sums.follows_start : Sums.start.Follows 0 0 0 where
  scoresNear := Number.Binary64.approx_zero.mono (Nat.zero_le 3) le_rfl
  weightsNear := Number.Binary64.approx_zero.mono (Nat.zero_le 1) le_rfl
  nonneg := le_rfl
  wide := .inl rfl
  small := by rw [Nat.cast_zero, zero_mul]
  nonneg' := le_rfl
  small' := by rw [Nat.cast_zero, zero_mul]

/-- A sum with one more number is within one more rounding. -/
theorem addScalar_near {sum : Binary64} {v w : ℚ} (most : ℚ) (hsum : Approx k sum v)
    (hx : Approx k x.toBinary64 w) (notTooLarge : x.isTooLarge = false) (few : k ≤ 2 ^ 52)
    (small : v + w ≤ most) (near : 2 * most ≤ reach) :
    ∃ sum', addScalar sum x = .ok sum' ∧ Approx (k + 1) sum' (v + w) := by
  have both := hsum.near.add hx.near
  have nonneg := add_nonneg hsum.size.value_nonneg hx.size.value_nonneg
  have double := both.le_two_mul few nonneg
  refine ⟨sum.add x.toBinary64, ?_, ?_⟩
  · rw [addScalar, notTooLarge, if_neg Bool.false_ne_true]
  · have rounded := (hsum.size.approx_add hx.size (by linarith)).trans both
    rwa [Nat.add_comm 1 k] at rounded

/-- One more score and weight leave the sums within one more rounding. -/
theorem Sums.Follows.add (h : sums.Follows k total weights) (few : k + 1 ≤ 2 ^ 50)
    (hs : score.Usual) (hw : weight.Usual) :
    ∃ sums', sums.add score weight = .ok sums' ∧
      sums'.Follows (k + 1) (total + score.value * weight.value) (weights + weight.value) := by
  have pos := usual_pos
  obtain ⟨p, weighed, notTooLarge, near⟩ := weigh_near hs hw
  obtain ⟨wide, small⟩ := mul_range hs hw
  have product : 0 ≤ score.value * weight.value := mul_nonneg hs.nonneg hw.nonneg
  have total' : total + score.value * weight.value ≤ (k + 1 : ℕ) * usual ^ 2 := by
    rw [Nat.cast_succ, add_mul, one_mul]
    exact add_le_add h.small small
  have weights' : weights + weight.value ≤ (k + 1 : ℕ) * usual := by
    rw [Nat.cast_succ, add_mul, one_mul]
    exact add_le_add h.small' hw.small
  have many : ((k + 1 : ℕ) : ℚ) ≤ 2 ^ 50 := by exact_mod_cast few
  have far := mul_usual_le_reach
  have one : 1 ≤ usual := le_trans (by norm_num) large_usual
  have low : usual ≤ usual ^ 4 := le_self_pow₀ one (by norm_num)
  have mid : usual ^ 2 ≤ usual ^ 4 := pow_le_pow_right₀ one (by norm_num)
  have top : 0 < usual ^ 4 := by positivity
  obtain ⟨scores', added, nearScores⟩ := addScalar_near (2 ^ 50 * usual ^ 4) h.scoresNear
    (near.mono (Nat.le_add_left 3 k) product) notTooLarge (by omega)
    (total'.trans (mul_le_mul many mid (by positivity) (by norm_num))) (by linarith)
  obtain ⟨weights'', added', nearWeights⟩ := addScalar_near (2 ^ 50 * usual ^ 4)
    h.weightsNear
    (hw.approx.mono (Nat.le_add_left 1 k) hw.nonneg) hw.isTooLarge (by omega)
    (weights'.trans (mul_le_mul many low pos.le (by norm_num))) (by linarith)
  refine ⟨⟨scores', weights''⟩, ?_, ?_⟩
  · show (weigh score weight >>= _) = _
    rw [weighed]
    show (addScalar sums.scores p >>= _) = _
    rw [added]
    show (addScalar sums.weights weight >>= _) = _
    rw [added']
    rfl
  · exact {
      scoresNear := by rwa [Nat.add_right_comm] at nearScores
      weightsNear := nearWeights
      nonneg := add_nonneg h.nonneg product
      wide := by
        rcases h.wide with none | least
        · rwa [none, zero_add]
        · exact .inr (least.trans (le_add_of_nonneg_right product))
      small := total'
      nonneg' := add_nonneg h.nonneg' hw.nonneg
      small' := weights' }

/-- The exact sum of weighted scores. -/
def totalOf (scored : List (Scalar × Scalar)) : ℚ :=
  (scored.map fun p => p.1.value * p.2.value).sum

/-- The exact sum of the weights. -/
def weightOfAll (scored : List (Scalar × Scalar)) : ℚ :=
  (scored.map fun p => p.2.value).sum

/-- The exact mean. -/
def exactMean (scored : List (Scalar × Scalar)) : ℚ :=
  totalOf scored / weightOfAll scored

variable {scored : List (Scalar × Scalar)}

/-- The sums of a list of scores and weights are within as many more roundings as there are scores. -/
theorem Sums.Follows.addAll (h : sums.Follows k total weights)
    (all : ∀ p ∈ scored, p.1.Usual ∧ p.2.Usual) (few : k + scored.length ≤ 2 ^ 50) :
    ∃ sums', scored.foldlM (fun (s : Sums) p => s.add p.1 p.2) sums = .ok sums' ∧
      sums'.Follows (k + scored.length) (total + totalOf scored) (weights + weightOfAll scored) := by
  induction scored generalizing k sums total weights with
  | nil =>
    refine ⟨sums, rfl, ?_⟩
    rwa [totalOf, weightOfAll, List.map_nil, List.map_nil, List.sum_nil, add_zero, add_zero]
  | cons p scored ih =>
    rw [List.length_cons] at few ⊢
    obtain ⟨hs, hw⟩ := all p List.mem_cons_self
    obtain ⟨next, added, follows⟩ := h.add (by omega) hs hw
    obtain ⟨sums', rest, follows'⟩ := ih follows (fun q hq => all q (List.mem_cons_of_mem p hq))
      (by omega)
    refine ⟨sums', ?_, ?_⟩
    · rw [List.foldlM_cons, added]
      exact rest
    · rw [totalOf, weightOfAll, List.map_cons, List.map_cons, List.sum_cons, List.sum_cons,
        ← add_assoc total, ← add_assoc weights, ← Nat.add_assoc, Nat.add_right_comm k]
      exact follows'

/-! ### Means -/

/-- A sum of usual weights, not all zero, is no smaller than one of them may be. -/
theorem weightOfAll_ge (some : scored ≠ [])
    (all : ∀ p ∈ scored, p.2.Usual ∧ 0 < p.2.value) : 1 / usual ≤ weightOfAll scored := by
  cases scored with
  | nil => exact absurd rfl some
  | cons p scored =>
    obtain ⟨hw, positive⟩ := all p List.mem_cons_self
    rw [weightOfAll, List.map_cons, List.sum_cons]
    have rest : 0 ≤ (scored.map fun p => p.2.value).sum :=
      List.sum_nonneg fun w hw => by
        obtain ⟨q, hq, rfl⟩ := List.mem_map.1 hw
        exact (all q (List.mem_cons_of_mem p hq)).1.nonneg
    have least := hw.wide.resolve_left positive.ne'
    linarith

/-- Scores between two numbers have their exact mean between them. -/
theorem total_between {lo hi : ℚ} (all : ∀ p ∈ scored, 0 < p.2.value)
    (between : ∀ p ∈ scored, lo ≤ p.1.value ∧ p.1.value ≤ hi) :
    lo * weightOfAll scored ≤ totalOf scored ∧ totalOf scored ≤ hi * weightOfAll scored := by
  induction scored with
  | nil => simp [totalOf, weightOfAll]
  | cons p scored ih =>
    obtain ⟨low, high⟩ := ih (fun q hq => all q (List.mem_cons_of_mem p hq))
      fun q hq => between q (List.mem_cons_of_mem p hq)
    obtain ⟨low', high'⟩ := between p List.mem_cons_self
    have positive := (all p List.mem_cons_self).le
    rw [totalOf, weightOfAll, List.map_cons, List.map_cons, List.sum_cons, List.sum_cons, mul_add,
      mul_add]
    exact ⟨add_le_add (mul_le_mul_of_nonneg_right low' positive) low,
      add_le_add (mul_le_mul_of_nonneg_right high' positive) high⟩

/-- The quotient of sums that follow exact ones is within the roundings of both and one more of the exact
quotient. -/
theorem Sums.Follows.mean_near (h : sums.Follows k total weights) (few : k ≤ 2 ^ 50)
    (least : 1 / usual ≤ weights) : Approx (2 * k + 5) sums.mean (total / weights) := by
  have pos := usual_pos
  have positive : 0 < weights := lt_of_lt_of_le (by positivity) least
  have hs := h.scoresNear
  have hw := h.weightsNear
  have many : (k : ℚ) ≤ 2 ^ 50 := by exact_mod_cast few
  have near : Near (k + 3 + (k + 1)) (sums.scores.value / sums.weights.value) (total / weights) :=
    hs.near.div hw.near hs.size.value_nonneg (hw.near.pos positive) h.nonneg positive
  -- The exact quotient is zero or within reach, whose bounds leave room for the roundings.
  have far := mul_usual_le_reach
  have one : 1 ≤ usual := le_trans (by norm_num) large_usual
  have cube : usual ^ 3 ≤ usual ^ 4 := pow_le_pow_right₀ one (by norm_num)
  have top : 0 < usual ^ 3 := pow_pos pos 3
  have wide : total / weights = 0 ∨ 1 / (2 ^ 50 * usual ^ 3) ≤ total / weights := by
    rcases h.wide with none | some
    · exact .inl (by rw [none, zero_div])
    · refine .inr ?_
      have most : weights ≤ 2 ^ 50 * usual :=
        h.small'.trans (mul_le_mul_of_nonneg_right many pos.le)
      calc 1 / (2 ^ 50 * usual ^ 3) = 1 / usual ^ 2 / (2 ^ 50 * usual) := by
            rw [div_div]
            ring
        _ ≤ total / weights := div_le_div₀ h.nonneg some positive most
  have small : total / weights ≤ 2 ^ 50 * usual ^ 3 := by
    have most : total ≤ 2 ^ 50 * usual ^ 2 :=
      h.small.trans (mul_le_mul_of_nonneg_right many (pow_pos pos 2).le)
    calc total / weights ≤ 2 ^ 50 * usual ^ 2 / (1 / usual) :=
          div_le_div₀ (mul_pos (by norm_num) (pow_pos pos 2)).le most (by positivity) least
      _ = 2 ^ 50 * usual ^ 3 := by rw [div_div_eq_mul_div, div_one]; ring
  obtain ⟨wide', small'⟩ := range_of_near near (by omega)
    (div_nonneg hs.size.value_nonneg hw.size.value_nonneg) (div_nonneg h.nonneg positive.le) wide small
  have quotient : Approx 1 (sums.scores.div sums.weights)
      (sums.scores.value / sums.weights.value) := by
    refine hs.size.approx_div hw.size (hw.near.pos positive)
      (wide'.imp_right fun least => le_trans ?_ least) (by linarith)
    refine one_div_reach_le (half_pos (one_div_pos.2 (mul_pos (by norm_num) top))) ?_
    rw [one_div_div, one_div, div_inv_eq_mul]
    linarith
  have lighter : Binary64.zero.lt sums.weights = true := by
    have some : 0 < sums.weights.magnitude := by
      have some := hw.near.pos positive
      rw [hw.size.value_eq] at some
      exact Nat.pos_of_ne_zero fun none => by
        rw [none, Nat.cast_zero, zero_div] at some
        exact lt_irrefl 0 some
    have units := hw.size.units_eq
    obtain ⟨negative, m, e, finite, _⟩ := hw.size
    rw [finite] at some units ⊢
    refine decide_eq_true ?_
    rw [units]
    exact Int.natCast_pos.2 some
  rw [Sums.mean, if_pos lighter]
  have rounded := quotient.trans near
  rwa [show 1 + (k + 3 + (k + 1)) = 2 * k + 5 by omega] at rounded

/-- Scores and weights that are usual, with positive weights, have a mean that is within some roundings of
the exact one. -/
theorem aggregate_near (some : scored ≠ []) (few : scored.length ≤ 2 ^ 50)
    (all : ∀ p ∈ scored, p.1.Usual ∧ p.2.Usual ∧ 0 < p.2.value) :
    ∃ m, aggregate scored = .ok m ∧
      Approx (2 * scored.length + 5) m (exactMean scored) := by
  obtain ⟨sums, added, follows⟩ := Sums.follows_start.addAll
    (fun p hp => ⟨(all p hp).1, (all p hp).2.1⟩) (by omega)
  rw [Nat.zero_add, zero_add, zero_add] at follows
  refine ⟨sums.mean, ?_, follows.mean_near few (weightOfAll_ge some fun p hp => (all p hp).2)⟩
  show (scored.foldlM (fun (s : Sums) p => s.add p.1 p.2) Sums.start).map Sums.mean = _
  rw [added]
  rfl

/-- The mean of results is that of the scores and weights that are read from them. -/
theorem aggregateResults_eq {weights : Value} {results : List Value}
    (read : results.mapM (scoredOf weights) = .ok scored) :
    aggregateResults weights results = aggregate scored := by
  have sums (start : Sums) :
      results.foldlM (fun (s : Sums) result => (scoredOf weights result).bind fun p => s.add p.1 p.2) start =
        scored.foldlM (fun (s : Sums) p => s.add p.1 p.2) start := by
    induction results generalizing scored start with
    | nil =>
      cases read
      rfl
    | cons result results ih =>
      rw [List.mapM_cons] at read
      cases first : scoredOf weights result with
      | error fault =>
        rw [first] at read
        cases read
      | ok p =>
        rw [first] at read
        cases rest : results.mapM (scoredOf weights) with
        | error fault =>
          rw [rest] at read
          cases read
        | ok more =>
          rw [rest] at read
          cases read
          rw [List.foldlM_cons, List.foldlM_cons, first]
          exact congrArg _ (funext fun next => ih rest next)
  exact congrArg (Except.map Sums.mean) (sums Sums.start)

end MonoTap.Lane

namespace MonoTap

open Lane (Scalar Tier aggregate aggregateResults exactMean highScore scoredOf standardScore totalOf
  unitWeight weightOfAll)
open Document (Value)
open Number (Binary64 Near roundoff)

/-! ### Runs without diagnostics -/

variable {files : List FileMigration}

theorem highScore_eq : highScore = .finite false 8106479329266893 1021 := by
  decide +kernel

theorem standardScore_eq : standardScore = .finite false 6755399441055744 1021 := by
  decide +kernel

theorem unitWeight_eq : unitWeight = .real (.finite false 4503599627370496 1022) := by
  decide +kernel

/-- The value of a number that is written with the exponent of the numbers below one. -/
theorem value_of_exponent (m : ℕ) (e : ℕ) (h : e ≤ 1074) :
    (Binary64.finite false m e).value = m / 2 ^ (1074 - e) := by
  have size : (Binary64.finite false m e).IsSize := ⟨_, _, _, rfl, fun h => by cases h⟩
  have split : (Number.Binary64.unit : ℚ) = 2 ^ e * 2 ^ (1074 - e) := by
    rw [Number.Binary64.unit, Number.twoTo_eq_pow, Nat.cast_pow, Nat.cast_ofNat, ← pow_add,
      Nat.add_sub_cancel' h]
  rw [size.value_eq, split, Number.Binary64.magnitude, Number.twoTo_eq_pow, Nat.cast_mul, Nat.cast_pow,
    Nat.cast_ofNat, mul_comm (m : ℚ), mul_div_mul_left _ _ (by positivity)]

theorem value_highScore : highScore.value = 8106479329266893 / 2 ^ 53 := by
  rw [highScore_eq, value_of_exponent _ _ (by norm_num)]
  norm_num

theorem value_standardScore : standardScore.value = 3 / 4 := by
  rw [standardScore_eq, value_of_exponent _ _ (by norm_num)]
  norm_num

theorem usual_highScore : (Scalar.real highScore).Usual where
  size := ⟨_, _, _, highScore_eq, fun h => by cases h⟩
  wide := .inr (by
    show 1 / Lane.usual ≤ highScore.value
    rw [value_highScore, Lane.usual]
    norm_num)
  small := by
    show highScore.value ≤ Lane.usual
    rw [value_highScore, Lane.usual]
    norm_num

theorem value_unitWeight : unitWeight.value = 1 := by
  rw [unitWeight_eq]
  show (Binary64.finite false 4503599627370496 1022).value = 1
  rw [value_of_exponent _ _ (by norm_num)]
  norm_num

theorem usual_unitWeight : unitWeight.Usual where
  size := by
    rw [unitWeight_eq]
    exact ⟨_, _, _, rfl, fun h => by cases h⟩
  wide := .inr (by
    rw [value_unitWeight, Lane.usual]
    norm_num)
  small := by
    rw [value_unitWeight, Lane.usual]
    norm_num

/-- Sizes are compared as the numbers that they stand for. -/
theorem le_iff_value {a b : Binary64} (ha : a.IsSize) (hb : b.IsSize) :
    a.le b = true ↔ a.value ≤ b.value := by
  have compared : a.le b = !decide (b.units < a.units) := by
    obtain ⟨_, _, _, rfl, _⟩ := ha
    obtain ⟨_, _, _, rfl, _⟩ := hb
    rfl
  rw [compared, Number.Binary64.value, Number.Binary64.value,
    div_le_div_iff_of_pos_right Number.Binary64.unit_pos, Int.cast_le, Bool.not_eq_true',
    decide_eq_false_iff_not, not_lt]

/-- A size near 0.9 is 0.9 when it is rounded to four places. -/
theorem round_eq_highScore {m : Binary64} (size : m.IsSize) (low : 0.89995 < m.value)
    (high : m.value < 0.90005) : m.round 4 = highScore := by
  have unit := Number.Binary64.unit_pos
  have positive : 0 < m.value := lt_trans (by norm_num) low
  have value := size.value_eq
  obtain ⟨negative, mantissa, exponent, rfl, zero⟩ := size
  have above : negative = false := by
    cases negative with
    | false => rfl
    | true =>
      rw [value, Number.Binary64.magnitude, zero rfl, Nat.zero_mul, Nat.cast_zero, zero_div] at positive
      exact absurd positive (lt_irrefl 0)
  subst above
  rw [value, lt_div_iff₀ unit] at low
  rw [value, div_lt_iff₀ unit] at high
  obtain ⟨size, hsize⟩ : ∃ size, (Binary64.finite false mantissa exponent).magnitude = size := ⟨_, rfl⟩
  rw [hsize] at low high
  have thousandths : Number.halfEven (size * Number.tenTo 4) Number.Binary64.unit = 9000 := by
    have ten : Number.tenTo 4 = 10000 := rfl
    rw [ten]
    have whole : 0 < Number.Binary64.unit := by exact_mod_cast unit
    obtain ⟨below, above⟩ := Number.halfEven_near (size * 10000) Number.Binary64.unit whole
    generalize Number.halfEven (size * 10000) Number.Binary64.unit = q at below above
    have below : (2 * (size * 10000) : ℚ) ≤ (2 * q + 1) * Number.Binary64.unit := by
      exact_mod_cast below
    have above : (2 * q * Number.Binary64.unit : ℚ) ≤ 2 * (size * 10000) + Number.Binary64.unit := by
      exact_mod_cast above
    have least : (8999 : ℚ) < q := by
      refine lt_of_mul_lt_mul_right ?_ unit.le
      linarith
    have most : (q : ℚ) < 9001 := by
      refine lt_of_mul_lt_mul_right ?_ unit.le
      linarith
    have least : 8999 < q := by exact_mod_cast least
    have most : q < 9001 := by exact_mod_cast most
    omega
  have shown : (Binary64.finite false mantissa exponent).round 4 =
      .ofRatio false (Number.halfEven (size * Number.tenTo 4) Number.Binary64.unit) (Number.tenTo 4) := by
    rw [← hsize]
    rfl
  refine (shown.trans (congrArg (Binary64.ofRatio false · (Number.tenTo 4)) thousandths)).trans ?_
  decide +kernel

/-- The scores of the files of a run without diagnostics. -/
theorem scores_of_clean (clean : ∀ f ∈ files, f.diagnostics = []) :
    (files.filterMap fun f => Lane.tap.summary? f.file f.result).map
        (fun s => (s.confidence, unitWeight)) =
      List.replicate (files.filter FileMigration.changed).length (.real highScore, unitWeight) := by
  induction files with
  | nil => rfl
  | cons f files ih =>
    have rest := ih fun g hg => clean g (List.mem_cons_of_mem f hg)
    have none : f.result.allDiagnostics = [] := clean f List.mem_cons_self
    rw [List.filterMap_cons, List.filter_cons, FileMigration.changed, Lane.summary?, none]
    cases f.result.changed with
    | false => exact rest
    | true =>
      have score : Lane.tap.confidence false = .real highScore :=
        congrArg Scalar.real (if_neg Bool.false_ne_true)
      rw [if_pos rfl, if_pos rfl, List.map_cons, rest, List.length_cons, List.replicate_succ,
        List.isEmpty_nil, Bool.not_true, score]

/-- The mean of scores of 0.9, with a weight of one each. -/
theorem mean_of_high {n : ℕ} (some : 0 < n) (few : n ≤ 2 ^ 36) :
    ∃ m : Binary64, aggregate (List.replicate n (.real highScore, unitWeight)) = .ok m ∧ m.IsSize ∧
      0.89995 < m.value ∧ m.value < 0.90005 := by
  have all : ∀ p ∈ List.replicate n (Scalar.real highScore, unitWeight),
      p.1.Usual ∧ p.2.Usual ∧ 0 < p.2.value := fun p hp => by
    rw [List.eq_of_mem_replicate hp]
    exact ⟨usual_highScore, usual_unitWeight, by rw [value_unitWeight]; norm_num⟩
  have nonempty : List.replicate n (Scalar.real highScore, unitWeight) ≠ [] := fun none => by
    rw [List.replicate_eq_nil_iff] at none
    omega
  obtain ⟨m, mean, near⟩ := Lane.aggregate_near nonempty (by rw [List.length_replicate]; omega) all
  rw [List.length_replicate] at near
  have exact : exactMean (List.replicate n (Scalar.real highScore, unitWeight)) = highScore.value := by
    have weight := lt_of_lt_of_le (one_div_pos.2 Lane.usual_pos)
      (Lane.weightOfAll_ge nonempty fun p hp => (all p hp).2)
    have only : ∀ p ∈ List.replicate n (Scalar.real highScore, unitWeight),
        highScore.value ≤ p.1.value ∧ p.1.value ≤ highScore.value := fun p hp => by
      rw [List.eq_of_mem_replicate hp]
      exact ⟨le_rfl, le_rfl⟩
    obtain ⟨low, high⟩ := Lane.total_between (fun p hp => (all p hp).2.2) only
    rw [exactMean, div_eq_iff weight.ne']
    exact le_antisymm high low
  rw [exact] at near
  have error : ((2 * n + 5 : ℕ) : ℚ) * roundoff ≤ 1 / 2 ^ 15 := by
    have few : ((2 * n + 5 : ℕ) : ℚ) ≤ 2 ^ 38 := by
      have : 2 * n + 5 ≤ 2 ^ 38 := by omega
      exact_mod_cast this
    rw [roundoff]
    linarith
  have factor := Number.one_sub_mul_le_factor (2 * n + 5)
  have least : 1 - 1 / 2 ^ 15 ≤ (1 - roundoff) ^ (2 * n + 5) := by linarith
  have size := near.size.value_nonneg
  have low := (mul_le_mul_of_nonneg_right least (by rw [value_highScore]; norm_num)).trans near.near.le
  have high := (mul_le_mul_of_nonneg_right least size).trans near.near.ge
  rw [value_highScore] at low high
  refine ⟨m, mean, near.size, ?_, ?_⟩
  · linarith
  · linarith

/-- The tiers of runs of few files that all have a score of 0.9. -/
theorem tier_of_few : ∀ n < 21,
    (aggregate (List.replicate (n + 1) (.real highScore, unitWeight))).toOption.map
      (fun m => Tier.ofScore (.real m)) = some (if n < 20 then .high else .standard) := by
  decide +kernel

/-- A result with a score of 0.9. -/
def highResult : Value := .record [("confidence", .float highScore)]

end MonoTap

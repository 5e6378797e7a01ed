import Mathlib.Algebra.Order.Field.Basic
import Mathlib.Algebra.Order.Field.Rat
import Mathlib.Tactic.FieldSimp
import Mathlib.Tactic.GCongr
import Mathlib.Tactic.Linarith
import Mathlib.Tactic.NormNum
import Mathlib.Tactic.Positivity
import Mathlib.Tactic.Ring
import MonoTap.Number.Binary64

/-!
# Rounding errors

How far the operations on floating-point numbers are from the exact ones. One rounding changes a number
by a factor that differs from one by at most 2^-53, as long as the number is not too large and not so small
that bits are lost; what several operations come to is told by the number of roundings on the way.
-/

set_option autoImplicit false

namespace MonoTap.Number

/-! ### Nearness -/

/-- The greatest relative error of one rounding. -/
def roundoff : ℚ := 1 / 2 ^ 53

/-- Whether a size is within so many roundings of another one. -/
structure Near (k : ℕ) (x v : ℚ) : Prop where
  le : (1 - roundoff) ^ k * v ≤ x
  ge : (1 - roundoff) ^ k * x ≤ v

variable {k l : ℕ} {x y z v w : ℚ}

theorem factor_pos (k : ℕ) : 0 < (1 - roundoff) ^ k := by
  have base : 0 < 1 - roundoff := by norm_num [roundoff]
  positivity

theorem factor_le_one (k : ℕ) : (1 - roundoff) ^ k ≤ 1 :=
  pow_le_one₀ (by norm_num [roundoff]) (by norm_num [roundoff])

/-- The relative errors of several roundings add up at most. -/
theorem one_sub_mul_le_factor (k : ℕ) : 1 - k * roundoff ≤ (1 - roundoff) ^ k := by
  induction k with
  | zero => norm_num
  | succ k ih =>
    have small : 0 ≤ roundoff := by norm_num [roundoff]
    have base : 0 ≤ 1 - roundoff := by norm_num [roundoff]
    calc 1 - ((k + 1 : ℕ) : ℚ) * roundoff
        ≤ (1 - k * roundoff) * (1 - roundoff) := by
          have square : 0 ≤ (k : ℚ) * roundoff * roundoff := by positivity
          push_cast
          linarith
      _ ≤ (1 - roundoff) ^ k * (1 - roundoff) := mul_le_mul_of_nonneg_right ih base
      _ = (1 - roundoff) ^ (k + 1) := (pow_succ _ _).symm

namespace Near

theorem refl (x : ℚ) : Near 0 x x := ⟨by rw [pow_zero, one_mul], by rw [pow_zero, one_mul]⟩

theorem mono (h : Near k x v) (more : k ≤ l) (hx : 0 ≤ x) (hv : 0 ≤ v) : Near l x v := by
  have less : (1 - roundoff) ^ l ≤ (1 - roundoff) ^ k :=
    pow_le_pow_of_le_one (by norm_num [roundoff]) (by norm_num [roundoff]) more
  exact ⟨(mul_le_mul_of_nonneg_right less hv).trans h.le,
    (mul_le_mul_of_nonneg_right less hx).trans h.ge⟩

theorem trans (h : Near k x y) (h' : Near l y z) : Near (k + l) x z := by
  constructor
  · calc (1 - roundoff) ^ (k + l) * z = (1 - roundoff) ^ k * ((1 - roundoff) ^ l * z) := by ring
      _ ≤ (1 - roundoff) ^ k * y := mul_le_mul_of_nonneg_left h'.le (factor_pos k).le
      _ ≤ x := h.le
  · calc (1 - roundoff) ^ (k + l) * x = (1 - roundoff) ^ l * ((1 - roundoff) ^ k * x) := by ring
      _ ≤ (1 - roundoff) ^ l * y := mul_le_mul_of_nonneg_left h.ge (factor_pos l).le
      _ ≤ z := h'.ge

theorem add (h : Near k x v) (h' : Near k y w) : Near k (x + y) (v + w) :=
  ⟨by rw [mul_add]; exact add_le_add h.le h'.le, by rw [mul_add]; exact add_le_add h.ge h'.ge⟩

theorem mul (h : Near k x v) (h' : Near l y w) (hx : 0 ≤ x) (hy : 0 ≤ y) (hv : 0 ≤ v) (hw : 0 ≤ w) :
    Near (k + l) (x * y) (v * w) := by
  constructor
  · calc (1 - roundoff) ^ (k + l) * (v * w) = (1 - roundoff) ^ k * v * ((1 - roundoff) ^ l * w) := by
          ring
      _ ≤ x * y := mul_le_mul h.le h'.le (mul_nonneg (factor_pos l).le hw) hx
  · calc (1 - roundoff) ^ (k + l) * (x * y) = (1 - roundoff) ^ k * x * ((1 - roundoff) ^ l * y) := by
          ring
      _ ≤ v * w := mul_le_mul h.ge h'.ge (mul_nonneg (factor_pos l).le hy) hv

theorem inv (h : Near k x v) (hx : 0 < x) (hv : 0 < v) : Near k x⁻¹ v⁻¹ := by
  constructor
  · rw [← div_eq_mul_inv, div_le_iff₀ hv, ← div_eq_inv_mul, le_div_iff₀ hx]
    exact h.ge
  · rw [← div_eq_mul_inv, div_le_iff₀ hx, ← div_eq_inv_mul, le_div_iff₀ hv]
    exact h.le

theorem div (h : Near k x v) (h' : Near l y w) (hx : 0 ≤ x) (hy : 0 < y) (hv : 0 ≤ v) (hw : 0 < w) :
    Near (k + l) (x / y) (v / w) := by
  rw [div_eq_mul_inv, div_eq_mul_inv]
  exact h.mul (h'.inv hy hw) hx (inv_pos.2 hy).le hv (inv_pos.2 hw).le

theorem pos (h : Near k x v) (hv : 0 < v) : 0 < x :=
  (mul_pos (factor_pos k) hv).trans_le h.le

end Near

/-- A few roundings at most double a size, and at most halve it. -/
theorem half_le_factor (few : k ≤ 2 ^ 52) : 1 / 2 ≤ (1 - roundoff) ^ k := by
  refine le_trans ?_ (one_sub_mul_le_factor k)
  have few : (k : ℚ) ≤ 2 ^ 52 := by exact_mod_cast few
  rw [roundoff]
  linarith

theorem Near.le_two_mul (h : Near k x v) (few : k ≤ 2 ^ 52) (hx : 0 ≤ x) : x ≤ 2 * v := by
  have half := mul_le_mul_of_nonneg_right (half_le_factor few) hx
  linarith [h.ge]

theorem Near.half_le (h : Near k x v) (few : k ≤ 2 ^ 52) (hv : 0 ≤ v) : v / 2 ≤ x := by
  have half := mul_le_mul_of_nonneg_right (half_le_factor few) hv
  linarith [h.le]

/-! ### Rounding to units -/

theorem twoTo_eq_pow (n : ℕ) : twoTo n = 2 ^ n := rfl

theorem log2_lt_of_lt_twoTo {n bits : ℕ} (some : n ≠ 0) (h : n < twoTo bits) : n.log2 < bits :=
  (Nat.log2_lt some).2 h

/-- What a number comes to after its mantissa was halved if need be. -/
theorem normal_eq (negative : Bool) {m e : ℕ} (small : e < 2045) :
    ∃ m' e', Binary64.normal negative m e = .finite negative m' e' ∧ m' * 2 ^ e' = m * 2 ^ e := by
  unfold Binary64.normal
  have limit : Binary64.mantissaLimit = 2 ^ 53 := rfl
  have most : Binary64.maxExponent = 2045 := rfl
  rw [limit, most]
  by_cases full : m = 2 ^ 53
  · rw [if_pos (beq_iff_eq.2 full)]
    dsimp only
    rw [if_pos (Nat.succ_le_of_lt small)]
    refine ⟨_, _, rfl, ?_⟩
    rw [full, pow_succ 2 e, show (2 : ℕ) ^ 53 / 2 = 2 ^ 52 from rfl, pow_succ 2 52]
    ring
  · rw [if_neg (fun h => full (beq_iff_eq.1 h))]
    dsimp only
    rw [if_pos small.le]
    exact ⟨_, _, rfl, rfl⟩

/-- A quotient of units that is not too large is rounded with a small relative error, if it has more
bits than a mantissa or none behind the point. -/
theorem ofUnits_near (negative : Bool) {n d : ℕ} (pos : 0 < d) (wide : 2 ^ 52 * d ≤ n ∨ d ∣ n)
    (small : n < twoTo 2096 * d) :
    ∃ m e, Binary64.ofUnits negative n d = .finite negative m e ∧
      Near 1 ((m * 2 ^ e : ℕ) : ℚ) ((n : ℚ) / d) := by
  have hd : (0 : ℚ) < d := by exact_mod_cast pos
  by_cases large : 2 ^ 52 * d ≤ n
  · -- The quotient has at least 53 bits; the step between mantissas is at most 2^-52 of it.
    have quotient : 2 ^ 52 ≤ n / d := (Nat.le_div_iff_mul_le pos).2 large
    have some : n / d ≠ 0 := fun h => by rw [h] at quotient; exact absurd quotient (by norm_num)
    have bits : 52 ≤ (n / d).log2 := (Nat.le_log2 some).2 quotient
    have most : (n / d).log2 < 2096 :=
      log2_lt_of_lt_twoTo some ((Nat.div_lt_iff_lt_mul pos).2 small)
    obtain ⟨e, he⟩ : ∃ e, (n / d).log2 = e + 52 := ⟨_, (Nat.sub_add_cancel bits).symm⟩
    have scale : 2 ^ e * 2 ^ 52 ≤ n / d := by
      rw [← pow_add, ← he]
      exact Nat.log2_self_le some
    have step : d * 2 ^ e * 2 ^ 52 ≤ n := by
      rw [Nat.mul_assoc, Nat.mul_comm]
      exact (Nat.le_div_iff_mul_le pos).1 scale
    have positive : 0 < d * 2 ^ e := Nat.mul_pos pos (by positivity)
    obtain ⟨m', e', same, size⟩ :=
      normal_eq negative (m := halfEven n (d * 2 ^ e)) (show e < 2045 by omega)
    refine ⟨m', e', ?_, ?_⟩
    · rw [Binary64.ofUnits, he, Nat.add_sub_cancel, twoTo_eq_pow]
      exact same
    · rw [size]
      obtain ⟨below, above⟩ := halfEven_near n (d * 2 ^ e) positive
      have below : (2 * n : ℚ) ≤ (2 * halfEven n (d * 2 ^ e) + 1) * (d * 2 ^ e) := by
        exact_mod_cast below
      have above : (2 * halfEven n (d * 2 ^ e) * (d * 2 ^ e) : ℚ) ≤ 2 * n + d * 2 ^ e := by
        exact_mod_cast above
      have step : (d * 2 ^ e * 2 ^ 52 : ℚ) ≤ n := by exact_mod_cast step
      push_cast
      constructor
      · rw [pow_one, roundoff, mul_div_assoc', div_le_iff₀ hd]
        linarith
      · rw [pow_one, roundoff, le_div_iff₀ hd]
        have size : (0 : ℚ) ≤ halfEven n (d * 2 ^ e) * (d * 2 ^ e) := by positivity
        linarith
  · -- A whole number of fewer bits is kept as it is.
    obtain ⟨q, rfl⟩ := wide.resolve_left large
    have few : q < 2 ^ 52 := by
      rw [Nat.mul_comm d q] at large
      exact Nat.lt_of_mul_lt_mul_right (Nat.lt_of_not_le large)
    have none : q.log2 - 52 = 0 := by
      by_cases zero : q = 0
      · rw [zero]
        rfl
      · have := (Nat.log2_lt zero).2 few
        omega
    obtain ⟨m', e', same, size⟩ := normal_eq negative (m := q) (e := 0) (by decide)
    refine ⟨m', e', ?_, ?_⟩
    · rw [Binary64.ofUnits, Nat.mul_div_cancel_left q pos, none, show twoTo 0 = 1 from rfl,
        Nat.mul_one, halfEven_of_dvd pos (Nat.dvd_mul_right d q), Nat.mul_div_cancel_left q pos]
      exact same
    · have exact : ((d * q : ℕ) : ℚ) / d = q := by
        rw [Nat.cast_mul, mul_div_cancel_left₀ _ hd.ne']
      rw [size, pow_zero, Nat.mul_one, exact]
      have whole : (0 : ℚ) ≤ q := Nat.cast_nonneg q
      exact (Near.refl _).mono (Nat.zero_le 1) whole whole

namespace Binary64

/-! ### Sizes -/

/-- The number that a finite one stands for. -/
def value (x : Binary64) : ℚ := x.units / unit

/-- Whether a number is finite and not below zero. -/
def IsSize (x : Binary64) : Prop :=
  ∃ negative mantissa exponent, x = .finite negative mantissa exponent ∧
    (negative = true → mantissa = 0)

/-- Whether a number is finite, not below zero and within so many roundings of a size. -/
structure Approx (k : ℕ) (x : Binary64) (v : ℚ) : Prop where
  size : x.IsSize
  near : Near k x.value v

variable {a b : Binary64}

theorem unit_pos : (0 : ℚ) < unit := by exact_mod_cast twoTo_pos 1074

theorem IsSize.units_eq (h : a.IsSize) : a.units = a.magnitude := by
  obtain ⟨negative, m, e, rfl, zero⟩ := h
  cases negative with
  | false => rfl
  | true =>
    rw [zero rfl, units, magnitude, Nat.zero_mul]
    rfl

theorem IsSize.value_eq (h : a.IsSize) : a.value = a.magnitude / unit := by
  rw [value, h.units_eq, Int.cast_natCast]

theorem IsSize.value_nonneg (h : a.IsSize) : 0 ≤ a.value := by
  rw [h.value_eq]
  exact div_nonneg (Nat.cast_nonneg _) unit_pos.le

theorem IsSize.magnitude_of_negative (h : a.IsSize) (negative : a.isNegative = true) :
    a.magnitude = 0 := by
  obtain ⟨_, m, e, rfl, zero⟩ := h
  rw [magnitude, zero negative, Nat.zero_mul]

/-- The sizes that the operations are looked at on, apart from zero, reach from the inverse of this number
to it. -/
def reach : ℚ := 2 ^ 1000

theorem reach_eq : reach = (2 ^ 200) ^ 5 := by rw [reach, ← pow_mul]

theorem unit_eq : (unit : ℚ) = reach * 2 ^ 74 := by
  rw [unit, twoTo_eq_pow, reach, ← pow_add, Nat.cast_pow, Nat.cast_ofNat]

/-- A quotient of units within reach, or zero, or a whole number of units that is not too large, is rounded
to a size with a small relative error. -/
theorem approx_ofUnits {negative : Bool} {n d : ℕ} (pos : 0 < d) (signed : negative = true → n = 0)
    (wide : d ∣ n ∨ 1 / reach ≤ (n : ℚ) / d / unit) (small : (n : ℚ) / d / unit ≤ reach) :
    Approx 1 (ofUnits negative n d) ((n : ℚ) / d / unit) := by
  have hd : (0 : ℚ) < d := by exact_mod_cast pos
  have far : 0 < reach := by
    rw [reach]
    positivity
  have wide : 2 ^ 52 * d ≤ n ∨ d ∣ n := by
    refine wide.symm.imp_left fun least => ?_
    rw [div_div, div_le_div_iff₀ far (mul_pos hd unit_pos), one_mul, unit_eq] at least
    have least : (d : ℚ) * 2 ^ 74 ≤ n := by
      refine le_of_mul_le_mul_right ?_ far
      linarith
    have least : d * 2 ^ 74 ≤ n := by exact_mod_cast least
    omega
  have small : n < twoTo 2096 * d := by
    rw [div_div, div_le_iff₀ (mul_pos hd unit_pos), unit_eq] at small
    have most : (n : ℚ) < (twoTo 2096 : ℕ) * d := by
      have top : ((twoTo 2096 : ℕ) : ℚ) = reach * (reach * 2 ^ 96) := by
        rw [twoTo_eq_pow, reach, ← pow_add, ← pow_add, Nat.cast_pow, Nat.cast_ofNat]
      have room : (0 : ℚ) < reach * reach * d := mul_pos (mul_pos far far) hd
      rw [top]
      calc (n : ℚ) ≤ reach * reach * d * 2 ^ 74 := by linarith
        _ < reach * reach * d * 2 ^ 96 := by
          exact mul_lt_mul_of_pos_left (by norm_num) room
        _ = reach * (reach * 2 ^ 96) * d := by ring
    exact_mod_cast most
  obtain ⟨m, e, rounded, near⟩ := ofUnits_near negative pos wide small
  have size : IsSize (ofUnits negative n d) := by
    refine ⟨negative, m, e, rounded, fun below => ?_⟩
    have none := near.ge
    rw [signed below, Nat.cast_zero, zero_div, pow_one] at none
    have nothing : ((m * 2 ^ e : ℕ) : ℚ) ≤ 0 := by
      have := factor_pos 1
      rw [pow_one] at this
      exact nonpos_of_mul_nonpos_right none this
    have nothing : m * 2 ^ e = 0 := by
      have : m * 2 ^ e ≤ 0 := by exact_mod_cast nothing
      omega
    exact (Nat.mul_eq_zero.1 nothing).resolve_right (by positivity)
  refine ⟨size, ?_⟩
  rw [size.value_eq, rounded]
  have scaled (q : ℚ) : (1 - roundoff) ^ 1 * (q / unit) = (1 - roundoff) ^ 1 * q / unit :=
    (mul_div_assoc _ _ _).symm
  constructor
  · rw [scaled]
    exact div_le_div_of_nonneg_right near.le unit_pos.le
  · rw [scaled]
    exact div_le_div_of_nonneg_right near.ge unit_pos.le

/-! ### Operations -/

variable {k l : ℕ} {v w : ℚ}

theorem Approx.mono (h : Approx k a v) (more : k ≤ l) (hv : 0 ≤ v) : Approx l a v :=
  ⟨h.size, h.near.mono more h.size.value_nonneg hv⟩

theorem Approx.trans (h : Approx k a v) (h' : Near l v w) : Approx (k + l) a w :=
  ⟨h.size, h.near.trans h'⟩

theorem IsSize.approx (h : a.IsSize) : Approx 0 a a.value := ⟨h, Near.refl _⟩

theorem approx_zero : Approx 0 zero 0 := by
  have size : zero.IsSize := ⟨false, 0, 0, rfl, fun h => by cases h⟩
  have value : zero.value = 0 := by
    rw [size.value_eq, zero, magnitude, Nat.zero_mul, Nat.cast_zero, zero_div]
  exact ⟨size, by rw [value]; exact Near.refl 0⟩

theorem approx_ofInt {n : ℤ} (nonneg : 0 ≤ n) (small : (n : ℚ) ≤ reach) : Approx 1 (ofInt n) n := by
  obtain ⟨n, rfl⟩ := Int.eq_ofNat_of_zero_le nonneg
  have exact : ((n * unit : ℕ) : ℚ) / (1 : ℕ) / unit = n := by
    rw [Nat.cast_one, div_one, Nat.cast_mul, mul_div_cancel_right₀ _ unit_pos.ne']
  have signed : decide ((n : ℤ) < 0) = true → n * unit = 0 := fun below =>
    absurd (of_decide_eq_true below) (not_lt.2 nonneg)
  have rounded := approx_ofUnits Nat.one_pos signed (.inl (Nat.one_dvd (n * unit)))
    (by rw [exact]; exact_mod_cast small)
  rw [exact] at rounded
  exact_mod_cast rounded

theorem IsSize.approx_add (ha : a.IsSize) (hb : b.IsSize) (small : a.value + b.value ≤ reach) :
    Approx 1 (a.add b) (a.value + b.value) := by
  have added : a.add b =
      if a.units + b.units == 0 then .finite (a.isNegative && b.isNegative) 0 0
      else ofUnits (a.units + b.units < 0) (a.units + b.units).natAbs 1 := by
    obtain ⟨_, _, _, rfl, _⟩ := ha
    obtain ⟨_, _, _, rfl, _⟩ := hb
    rfl
  have sum : a.units + b.units = ((a.magnitude + b.magnitude : ℕ) : ℤ) := by
    rw [ha.units_eq, hb.units_eq, Nat.cast_add]
  have exact : ((a.magnitude + b.magnitude : ℕ) : ℚ) / (1 : ℕ) / unit = a.value + b.value := by
    rw [ha.value_eq, hb.value_eq, Nat.cast_one, div_one, Nat.cast_add, add_div]
  rw [added, sum, Int.natAbs_natCast]
  by_cases none : a.magnitude + b.magnitude = 0
  · rw [none] at exact ⊢
    rw [← exact, Nat.cast_zero, Nat.cast_zero, zero_div, zero_div,
      if_pos (beq_self_eq_true (0 : ℤ))]
    have size : IsSize (.finite (a.isNegative && b.isNegative) 0 0) := ⟨_, _, _, rfl, fun _ => rfl⟩
    refine ⟨size, ?_⟩
    rw [size.value_eq, magnitude, Nat.zero_mul, Nat.cast_zero, zero_div]
    exact (Near.refl 0).mono (Nat.zero_le 1) le_rfl le_rfl
  · rw [if_neg (by rw [beq_iff_eq]; exact_mod_cast none), ← exact]
    refine approx_ofUnits Nat.one_pos (fun below => ?_) (.inl (Nat.one_dvd _)) (exact ▸ small)
    exact absurd (of_decide_eq_true below) (by omega)

/-- The sign of a product of sizes says below zero only for zero. -/
theorem IsSize.mul_eq_zero_of_sign (ha : a.IsSize) (hb : b.IsSize)
    (below : (a.isNegative != b.isNegative) = true) : a.magnitude = 0 ∨ b.magnitude = 0 := by
  cases sign : a.isNegative with
  | true => exact .inl (ha.magnitude_of_negative sign)
  | false =>
    rw [sign, Bool.false_bne] at below
    exact .inr (hb.magnitude_of_negative below)

theorem IsSize.approx_mul (ha : a.IsSize) (hb : b.IsSize)
    (range : a.value * b.value = 0 ∨ 1 / reach ≤ a.value * b.value)
    (small : a.value * b.value ≤ reach) : Approx 1 (a.mul b) (a.value * b.value) := by
  have multiplied : a.mul b =
      ofUnits (a.isNegative != b.isNegative) (a.magnitude * b.magnitude) unit := by
    obtain ⟨_, _, _, rfl, _⟩ := ha
    obtain ⟨_, _, _, rfl, _⟩ := hb
    rfl
  have exact : ((a.magnitude * b.magnitude : ℕ) : ℚ) / unit / unit = a.value * b.value := by
    rw [ha.value_eq, hb.value_eq, Nat.cast_mul, div_mul_div_comm, div_div]
  rw [multiplied, ← exact]
  refine approx_ofUnits (twoTo_pos 1074) (fun below => ?_) ?_ (exact ▸ small)
  · exact Nat.mul_eq_zero.2 (ha.mul_eq_zero_of_sign hb below)
  · rw [exact]
    refine range.imp_left fun none => ?_
    rw [← exact, div_div, div_eq_zero_iff] at none
    have none : a.magnitude * b.magnitude = 0 := by
      exact_mod_cast none.resolve_right (mul_pos unit_pos unit_pos).ne'
    rw [none]
    exact Nat.dvd_zero unit

theorem IsSize.approx_div (ha : a.IsSize) (hb : b.IsSize) (some : 0 < b.value)
    (range : a.value / b.value = 0 ∨ 1 / reach ≤ a.value / b.value)
    (small : a.value / b.value ≤ reach) : Approx 1 (a.div b) (a.value / b.value) := by
  have positive : 0 < b.magnitude := by
    refine Nat.pos_of_ne_zero fun none => ?_
    rw [hb.value_eq, none, Nat.cast_zero, zero_div] at some
    exact lt_irrefl 0 some
  have divided : a.div b =
      ofUnits (a.isNegative != b.isNegative) (a.magnitude * unit) b.magnitude := by
    have other : (b.magnitude == 0) = false := beq_eq_false_iff_ne.2 positive.ne'
    obtain ⟨_, _, _, rfl, _⟩ := ha
    obtain ⟨_, _, _, rfl, _⟩ := hb
    show (if (magnitude _ == 0) = true then _ else ofRatio _ _ _) = _
    rw [other, if_neg Bool.false_ne_true]
    rfl
  have hpos : (0 : ℚ) < b.magnitude := by exact_mod_cast positive
  have exact : ((a.magnitude * unit : ℕ) : ℚ) / b.magnitude / unit = a.value / b.value := by
    have pos := unit_pos
    rw [ha.value_eq, hb.value_eq, Nat.cast_mul]
    field_simp
  rw [divided, ← exact]
  refine approx_ofUnits positive (fun below => ?_) ?_ (exact ▸ small)
  · rw [(ha.mul_eq_zero_of_sign hb below).resolve_right positive.ne', Nat.zero_mul]
  · rw [exact]
    refine range.imp_left fun none => ?_
    rw [← exact, div_div, div_eq_zero_iff] at none
    have none : a.magnitude * unit = 0 := by
      exact_mod_cast none.resolve_right (mul_pos hpos unit_pos).ne'
    rw [none]
    exact Nat.dvd_zero _

end Binary64

end MonoTap.Number

import MonoTap.Number.Power

/-!
# Double precision

Floating-point numbers of 64 bits, as data. A finite one is a sign and a mantissa of at most 53 bits
times a power of two, counted in units of the least positive number, which is 2^-1074. Every
operation takes the exact result and rounds it to the nearest number, a tie to the even mantissa.
-/

set_option autoImplicit false

namespace MonoTap.Number

/-- The whole number nearest to a quotient; a tie goes to the even one. -/
def halfEven (n d : Nat) : Nat :=
  let q := n / d
  let twice := 2 * (n % d)
  if twice < d then q
  else if d < twice then q + 1
  else q + q % 2

/-- A floating-point number of 64 bits. -/
inductive Binary64 where
  | finite (negative : Bool) (mantissa exponent : Nat)
  | infinite (negative : Bool)
  | nan
  deriving DecidableEq, Repr, Inhabited

namespace Binary64

/-- The number of units in 1. -/
def unit : Nat := twoTo 1074

/-- The least mantissa that does not fit. -/
def mantissaLimit : Nat := twoTo 53

/-- The greatest exponent of a finite number. -/
def maxExponent : Nat := 2045

/-- The number with the given mantissa and exponent, where a mantissa that has just become too large
is halved. -/
def normal (negative : Bool) (mantissa exponent : Nat) : Binary64 :=
  let (mantissa, exponent) :=
    if mantissa == mantissaLimit then (mantissa / 2, exponent + 1) else (mantissa, exponent)
  if exponent ≤ maxExponent then .finite negative mantissa exponent else .infinite negative

/-- The number nearest to `n / d` units. -/
def ofUnits (negative : Bool) (n d : Nat) : Binary64 :=
  let exponent := (n / d).log2 - 52
  normal negative (halfEven n (d * twoTo exponent)) exponent

/-- The number nearest to the quotient of two natural numbers. -/
def ofRatio (negative : Bool) (n d : Nat) : Binary64 :=
  ofUnits negative (n * unit) d

/-- The number nearest to a whole number. -/
def ofInt (n : Int) : Binary64 :=
  ofRatio (n < 0) n.natAbs 1

/-- The number nearest to a decimal fraction `digits · 10^power`. -/
def ofDecimal (negative : Bool) (digits : Nat) (power : Int) : Binary64 :=
  match power with
  | .ofNat p => ofRatio negative (digits * tenTo p) 1
  | .negSucc p => ofRatio negative digits (tenTo (p + 1))

/-- Zero. -/
def zero : Binary64 := .finite false 0 0

/-- The size in units; nothing for a number that is not finite. -/
def magnitude : Binary64 → Nat
  | .finite _ mantissa exponent => mantissa * twoTo exponent
  | _ => 0

/-- The size with its sign, in units. -/
def units (x : Binary64) : Int :=
  match x with
  | .finite true _ _ => -(x.magnitude : Int)
  | _ => x.magnitude

/-- Whether the sign is that of the negative numbers. -/
def isNegative : Binary64 → Bool
  | .finite negative _ _ => negative
  | .infinite negative => negative
  | .nan => false

/-- The sum. -/
def add : Binary64 → Binary64 → Binary64
  | .nan, _ | _, .nan => .nan
  | .infinite a, .infinite b => if a == b then .infinite a else .nan
  | .infinite a, _ | _, .infinite a => .infinite a
  | x, y =>
    let sum := x.units + y.units
    if sum == 0 then .finite (x.isNegative && y.isNegative) 0 0
    else ofUnits (sum < 0) sum.natAbs 1

/-- The product. -/
def mul (x y : Binary64) : Binary64 :=
  let negative := x.isNegative != y.isNegative
  match x, y with
  | .nan, _ | _, .nan => .nan
  | .infinite _, .infinite _ => .infinite negative
  | .infinite _, z | z, .infinite _ => if z.magnitude == 0 then .nan else .infinite negative
  | x, y => ofUnits negative (x.magnitude * y.magnitude) unit

/-- The quotient. -/
def div (x y : Binary64) : Binary64 :=
  let negative := x.isNegative != y.isNegative
  match x, y with
  | .nan, _ | _, .nan => .nan
  | .infinite _, .infinite _ => .nan
  | .infinite _, _ => .infinite negative
  | _, .infinite _ => .finite negative 0 0
  | x, y =>
    if y.magnitude == 0 then if x.magnitude == 0 then .nan else .infinite negative
    else ofRatio negative x.magnitude y.magnitude

/-- Whether the first number is less than the second. -/
def lt : Binary64 → Binary64 → Bool
  | .nan, _ | _, .nan => false
  | .infinite a, .infinite b => a && !b
  | .infinite a, _ => a
  | _, .infinite b => !b
  | x, y => x.units < y.units

/-- Whether the first number is at most the second. -/
def le : Binary64 → Binary64 → Bool
  | .nan, _ | _, .nan => false
  | x, y => !y.lt x

/-- The number rounded to some decimal places. -/
def round (places : Nat) : Binary64 → Binary64
  | .finite negative mantissa exponent =>
    let size := mantissa * twoTo exponent
    ofRatio negative (halfEven (size * tenTo places) unit) (tenTo places)
  | x => x

/-- The 64 bits: sign, exponent, and the mantissa without its leading bit. -/
def bits : Binary64 → Nat
  | .finite negative mantissa exponent =>
    (if negative then twoTo 63 else 0) + exponent * twoTo 52 + mantissa
  | .infinite negative => (if negative then twoTo 63 else 0) + 0x7FF * twoTo 52
  | .nan => 0x7FF8 * twoTo 48

end Binary64

/-! ### Rounding a quotient -/

/-- The nearest whole number is at most half a step away. -/
theorem halfEven_near (n d : Nat) (positive : 0 < d) :
    2 * n ≤ (2 * halfEven n d + 1) * d ∧ 2 * halfEven n d * d ≤ 2 * n + d := by
  have split := Nat.div_add_mod n d
  have small := Nat.mod_lt n positive
  have times : ∀ k, (2 * k + 1) * d = 2 * (d * k) + d := by
    intro k
    rw [Nat.add_mul, Nat.one_mul, Nat.mul_assoc, Nat.mul_comm k d]
  have twice : ∀ k, 2 * k * d = 2 * (d * k) := by
    intro k
    rw [Nat.mul_assoc, Nat.mul_comm k d]
  simp only [halfEven]
  split
  · rw [times, twice]
    omega
  · split
    · rw [times, twice, Nat.mul_add, Nat.mul_one]
      omega
    · rw [times, twice, Nat.mul_add]
      rcases Nat.mod_two_eq_zero_or_one (n / d) with h | h <;> rw [h] <;> omega

theorem halfEven_of_dvd {n d : Nat} (positive : 0 < d) (h : d ∣ n) : halfEven n d = n / d := by
  have remainder : n % d = 0 := Nat.mod_eq_zero_of_dvd h
  simp [halfEven, remainder, positive]

end MonoTap.Number

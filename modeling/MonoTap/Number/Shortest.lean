import MonoTap.Number.Binary64

/-!
# Shortest decimals

The text of a floating-point number: the fewest decimal digits that read back as the same number,
and of those the nearest. The point is written in its place for sizes from 10^-4 up to 10^16, and
otherwise there is one digit before it and a power of ten after the digits.
-/

set_option autoImplicit false

namespace MonoTap.Number

/-- A decimal fraction `digits · 10^power`. -/
structure Decimal where
  digits : Nat
  power : Int
  deriving DecidableEq, Repr

namespace Decimal

/-- The nearest floating-point number. -/
def toBinary64 (d : Decimal) (negative : Bool) : Binary64 :=
  .ofDecimal negative d.digits d.power

/-- The fraction without zeros at the end of its digits. -/
def trimmed (d : Decimal) : Decimal :=
  let digits := (Nat.toDigits 10 d.digits).reverse
  let count := (digits.takeWhile (· == '0')).length
  ⟨d.digits / tenTo count, d.power + count⟩

end Decimal

/-- The least power of ten above `n / d`, for positive numbers. -/
def decimalExponent (n d : Nat) : Int :=
  if d ≤ n then (Nat.toDigits 10 (n / d)).length
  else
    match (List.range 400).find? fun k => d ≤ n * tenTo (k + 1) with
    | some k => -(k : Int)
    | none => -400

/-- The whole number just below `n / d · 10^-power`. -/
def scaledFloor (n d : Nat) (power : Int) : Nat :=
  match power with
  | .ofNat p => n / (d * tenTo p)
  | .negSucc p => n * tenTo (p + 1) / d

/-- Whether `n / d` lies below the middle of `k` and `k + 1` times `10^power`; in the middle,
whether `k` is even. -/
def lowerIsNearer (n d k : Nat) (power : Int) : Bool :=
  let (left, right) :=
    match power with
    | .ofNat p => (2 * n, (2 * k + 1) * d * tenTo p)
    | .negSucc p => (2 * n * tenTo (p + 1), (2 * k + 1) * d)
  left < right || (left == right && k % 2 == 0)

/-- The decimal with `count` digits that reads back as the given number of units and is nearest to
it, if there is one. -/
def decimalWith? (x : Binary64) (count : Nat) : Option Decimal :=
  let size := x.magnitude
  let power := decimalExponent size Binary64.unit - count
  let low := scaledFloor size Binary64.unit power
  let readsBack (k : Nat) : Bool := Binary64.ofDecimal false k power == .ofUnits false size 1
  match readsBack low, readsBack (low + 1) with
  | true, true =>
    some ⟨if lowerIsNearer size Binary64.unit low power then low else low + 1, power⟩
  | true, false => some ⟨low, power⟩
  | false, true => some ⟨low + 1, power⟩
  | false, false => none

/-- The shortest decimal that reads back as the size of a number. -/
def shortest (x : Binary64) : Decimal :=
  if x.magnitude == 0 then ⟨0, 0⟩
  else (((List.range 17).findSome? fun k => decimalWith? x (k + 1)).getD ⟨0, 0⟩).trimmed

/-- Digits with the point in its place, which is before the first digit if `point` is 0. -/
def positional (digits : List Char) (point : Int) : List Char :=
  if point ≤ 0 then '0' :: '.' :: List.replicate (-point).toNat '0' ++ digits
  else
    let whole := point.toNat
    if digits.length ≤ whole then
      digits ++ List.replicate (whole - digits.length) '0' ++ ['.', '0']
    else digits.take whole ++ '.' :: digits.drop whole

/-- Digits with one of them before the point, and a power of ten of at least two digits. -/
def scientific (digits : List Char) (exponent : Int) : List Char :=
  let mantissa :=
    match digits with
    | first :: second :: rest => first :: '.' :: second :: rest
    | digits => digits
  let size := Nat.toDigits 10 exponent.natAbs
  mantissa ++ 'e' :: (if exponent < 0 then '-' else '+') ::
    (if size.length < 2 then '0' :: size else size)

/-- The text of a decimal. -/
def Decimal.text (d : Decimal) : List Char :=
  let digits := Nat.toDigits 10 d.digits
  let point := (digits.length : Int) + d.power
  if d.digits == 0 then ['0', '.', '0']
  else if -4 < point && point ≤ 16 then positional digits point
  else scientific digits (point - 1)

/-- The text of a floating-point number. -/
def Binary64.text (x : Binary64) : String :=
  let sign := if x.isNegative then "-" else ""
  match x with
  | .finite .. => sign ++ String.ofList (shortest x).text
  | .infinite _ => sign ++ "inf"
  | .nan => "nan"

end MonoTap.Number

import MonoTap.Text.Blank

/-!
# Numerals

Reading a whole number in decimal digits of any script. The digits of a script are ten characters in
a row, so a table of the zeros is enough. A numeral may have blanks around it, a sign, and single
underscores between digits.
-/

set_option autoImplicit false

namespace MonoTap.Number

/-- The zeros of all scripts with decimal digits, in increasing order. -/
def zeros : List Nat := [
  0x30, 0x660, 0x6F0, 0x7C0, 0x966, 0x9E6, 0xA66, 0xAE6, 0xB66, 0xBE6, 0xC66, 0xCE6, 0xD66, 0xDE6,
  0xE50, 0xED0, 0xF20, 0x1040, 0x1090, 0x17E0, 0x1810, 0x1946, 0x19D0, 0x1A80, 0x1A90, 0x1B50,
  0x1BB0, 0x1C40, 0x1C50, 0xA620, 0xA8D0, 0xA900, 0xA9D0, 0xA9F0, 0xAA50, 0xABF0, 0xFF10, 0x104A0,
  0x10D30, 0x11066, 0x110F0, 0x11136, 0x111D0, 0x112F0, 0x11450, 0x114D0, 0x11650, 0x116C0,
  0x11730, 0x118E0, 0x11950, 0x11C50, 0x11D50, 0x11DA0, 0x16A60, 0x16AC0, 0x16B50, 0x1D7CE,
  0x1D7D8, 0x1D7E2, 0x1D7EC, 0x1D7F6, 0x1E140, 0x1E2F0, 0x1E950, 0x1FBF0]

/-- The value of a decimal digit of any script. -/
def digitValue? (c : Char) : Option Nat :=
  (zeros.find? fun first => first ≤ c.toNat && c.toNat < first + 10).map (c.toNat - ·)

/-- Whether a character is a blank that may stand around a numeral. The information separators are
none. -/
def isMargin (c : Char) : Bool :=
  Text.isBlank c && !(28 ≤ c.toNat && c.toNat ≤ 31)

/-- The greatest number of digits of a numeral. -/
def maxDigits : Nat := 4300

/-- The values of digits with at most one underscore between two of them. -/
def digitValues? : List Char → Option (List Nat)
  | [] => none
  | [c] => (digitValue? c).map fun d => [d]
  | c :: '_' :: cs => do
    let d ← digitValue? c
    return d :: (← digitValues? cs)
  | c :: cs => do
    let d ← digitValue? c
    return d :: (← digitValues? cs)

/-- The number with the given decimal digits. -/
def ofDigits (digits : List Nat) : Nat :=
  digits.foldl (fun n d => 10 * n + d) 0

/-- The number that an unsigned numeral stands for. -/
def natural? (cs : List Char) : Option Nat := do
  let digits ← digitValues? cs
  if digits.length ≤ maxDigits then some (ofDigits digits) else none

/-- The number that a numeral stands for. -/
def integer? (cs : List Char) : Option Int :=
  let cs := ((cs.dropWhile isMargin).reverse.dropWhile isMargin).reverse
  match cs with
  | '+' :: cs => (natural? cs).map Int.ofNat
  | '-' :: cs => (natural? cs).map fun n => -(n : Int)
  | cs => (natural? cs).map Int.ofNat

theorem ofDigits_concat (digits : List Nat) (d : Nat) :
    ofDigits (digits ++ [d]) = 10 * ofDigits digits + d := by
  simp [ofDigits]

end MonoTap.Number

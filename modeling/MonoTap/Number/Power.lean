/-!
# Powers

The powers of the two bases that numbers are written in here, two and ten.
-/

set_option autoImplicit false

namespace MonoTap.Number

/-- Two to some power. -/
def twoTo (exponent : Nat) : Nat := Nat.pow 2 exponent

/-- Ten to some power. -/
def tenTo (exponent : Nat) : Nat := Nat.pow 10 exponent

theorem twoTo_succ (exponent : Nat) : twoTo (exponent + 1) = twoTo exponent * 2 := rfl

theorem tenTo_succ (exponent : Nat) : tenTo (exponent + 1) = tenTo exponent * 10 := rfl

theorem twoTo_pos (exponent : Nat) : 0 < twoTo exponent := by
  induction exponent with
  | zero => exact Nat.one_pos
  | succ exponent ih => rw [twoTo_succ]; omega

theorem tenTo_pos (exponent : Nat) : 0 < tenTo exponent := by
  induction exponent with
  | zero => exact Nat.one_pos
  | succ exponent ih => rw [tenTo_succ]; omega

theorem twoTo_add (a b : Nat) : twoTo (a + b) = twoTo a * twoTo b := by
  induction b with
  | zero => exact (Nat.mul_one _).symm
  | succ b ih => rw [← Nat.add_assoc, twoTo_succ, ih, twoTo_succ, Nat.mul_assoc]

end MonoTap.Number

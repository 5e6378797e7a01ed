/-!
# Decimal digits

The digits, the fraction and the exponent at the start of a text, and what they are worth.
-/

set_option autoImplicit false

namespace MonoTap.Number

/-- The number with the given decimal digits. -/
def digitsValue (cs : List Char) : Nat :=
  cs.foldl (fun n c => 10 * n + (c.toNat - 48)) 0

/-- The digits at the start of a text. -/
def digitsOf (cs : List Char) : List Char :=
  cs.takeWhile Char.isDigit

/-- The length of an exponent at the start of a text, and its value. -/
def exponentOf (cs : List Char) : Option (Nat × Int) :=
  match cs with
  | e :: rest =>
    if e == 'e' || e == 'E' then
      let (sign, digits) :=
        match rest with
        | '-' :: more => ([-1], digitsOf more)
        | '+' :: more => ([1], digitsOf more)
        | more => ([], digitsOf more)
      if digits.isEmpty then none
      else some (1 + sign.length + digits.length, (sign.headD 1) * digitsValue digits)
    else none
  | [] => none

/-- The digits of a fraction at the start of a text. -/
def fractionOf (cs : List Char) : List Char :=
  match cs with
  | '.' :: rest => digitsOf rest
  | _ => []

/-- The digits at the start of a text are digits. -/
theorem isDigit_of_mem_digitsOf {cs : List Char} {c : Char} (h : c ∈ digitsOf cs) :
    c.isDigit = true := by
  induction cs with
  | nil => simp [digitsOf] at h
  | cons d ds ih =>
    by_cases hd : d.isDigit
    · simp only [digitsOf, List.takeWhile_cons, hd, ↓reduceIte, List.mem_cons] at h
      rcases h with rfl | h
      · exact hd
      · exact ih h
    · simp [digitsOf, hd] at h

end MonoTap.Number

import MonoTap.Document.Yaml.Scalar
import MonoTap.Number.Binary64
import MonoTap.Number.Digits
import MonoTap.Text.Blank
import MonoTap.Text.Quoted

/-!
# Numbers of a YAML text

A number may have underscores, and parts that count sixtieths. A whole number may also be binary,
octal or hexadecimal.
-/

set_option autoImplicit false

namespace MonoTap.Document.Yaml

open Number (Binary64)

/-- Whether a character is a digit or an underscore. -/
def isFigure (c : Char) : Bool := c.isDigit || c == '_'

/-- What is left after a sign, if there is one. -/
def unsigned : List Char → List Char
  | '+' :: cs => cs
  | '-' :: cs => cs
  | cs => cs

/-- Whether a text is a digit with figures after it. -/
def isFigures : List Char → Bool
  | [] => false
  | c :: cs => c.isDigit && cs.all isFigure

/-- Whether a text is a number below sixty in one or two digits. -/
def isSixtieth : List Char → Bool
  | [a] => a.isDigit
  | [a, b] => '0' ≤ a && a ≤ '5' && b.isDigit
  | _ => false

/-- Whether a text is figures with at least one sixtieth after them. -/
def isSexagesimal (cs : List Char) : Bool :=
  match Text.splitAt ':' cs with
  | whole :: part :: parts => isFigures whole && (part :: parts).all isSixtieth
  | _ => false

/-- Whether a text is an exponent with its sign, or empty. -/
def isExponent : List Char → Bool
  | [] => true
  | e :: sign :: digits =>
    (e == 'e' || e == 'E') && (sign == '+' || sign == '-') && !digits.isEmpty &&
      digits.all Char.isDigit
  | _ => false

/-- Whether a text is a number with a point. -/
def isFloat (text : List Char) : Bool :=
  let cs := unsigned text
  let signed := cs.length < text.length
  match cs.takeWhile (· != '.'), cs.dropWhile (· != '.') with
  | [], '.' :: rest =>
    ["inf", "Inf", "INF"].contains (String.ofList rest) ||
      (!signed && (["nan", "NaN", "NAN"].contains (String.ofList rest) ||
        (rest.head?.any Char.isDigit && isExponent (rest.dropWhile isFigure))))
  | whole, '.' :: rest =>
    (isFigures whole && isExponent (rest.dropWhile isFigure)) ||
      (isSexagesimal whole && rest.all isFigure)
  | _, _ => false

/-- Whether a text is a number without a point. -/
def isInt (text : List Char) : Bool :=
  match unsigned text with
  | ['0'] => true
  | '0' :: 'b' :: digits => !digits.isEmpty && digits.all ['0', '1', '_'].contains
  | '0' :: 'x' :: digits => !digits.isEmpty && digits.all fun c => (hexDigit? c).isSome || c == '_'
  | '0' :: digits => digits.all fun c => ('0' ≤ c && c ≤ '7') || c == '_'
  | cs => isFigures cs || isSexagesimal cs

/-- The number that digits in a base stand for. -/
def numberIn (base : Nat) (digits : List Char) : Except Fault Nat :=
  match digits.mapM hexDigit? with
  | some values =>
    if !values.isEmpty && values.all (· < base) then
      .ok (values.foldl (fun n d => base * n + d) 0)
    else invalid
  | none => invalid
where
  /-- The fault of a text that is no number. -/
  invalid : Except Fault Nat :=
    .error (.outOfRange ("invalid literal for int() with base " ++ toString base ++ ": " ++
      Text.quoted (String.ofList digits)))

/-- The whole number that a text stands for. -/
def intOf (text : List Char) : Except Fault Int := do
  let text := text.filter (· != '_')
  let cs := unsigned text
  let n ← match cs with
    | ['0'] => pure 0
    | '0' :: 'b' :: digits => numberIn 2 digits
    | '0' :: 'x' :: digits => numberIn 16 digits
    | '0' :: digits => numberIn 8 digits
    | _ =>
      (Text.splitAt ':' cs).foldlM (fun (n : Nat) part => (numberIn 10 part).map (60 * n + ·)) 0
  return if text.head? == some '-' then -(n : Int) else n

/-- The number that a decimal stands for. -/
def decimalOf (cs : List Char) : Except Fault Binary64 :=
  let whole := Number.digitsOf cs
  let rest := cs.drop whole.length
  let fraction := Number.fractionOf rest
  let rest := if rest.head? == some '.' then rest.drop (1 + fraction.length) else rest
  let (length, power) := (Number.exponentOf rest).getD (0, 0)
  if (whole ++ fraction).isEmpty || length < rest.length then
    .error (.outOfRange ("could not convert string to float: " ++ Text.quoted (String.ofList cs)))
  else .ok (.ofDecimal false (Number.digitsValue (whole ++ fraction)) (power - fraction.length))

/-- The sum of sixtieths, of which the last counts once. -/
def sumSixtieths : (base : Nat) → List Binary64 → Binary64 → Binary64
  | _, [], sum => sum
  | base, x :: xs, sum => sumSixtieths (60 * base) xs (sum.add (x.mul (.ofInt base)))

/-- The number with a point that a text stands for. -/
def floatOf (text : List Char) : Except Fault Binary64 := do
  let text := (text.filter (· != '_')).map Char.toLower
  let sign := Binary64.ofInt (if text.head? == some '-' then -1 else 1)
  let cs := unsigned text
  let x ←
    if cs == ".inf".toList then pure (.infinite false)
    else if cs == ".nan".toList then pure .nan
    else if cs.contains ':' then
      pure (sumSixtieths 1 (← (Text.splitAt ':' cs).mapM decimalOf).reverse .zero)
    else decimalOf cs
  return sign.mul x

end MonoTap.Document.Yaml

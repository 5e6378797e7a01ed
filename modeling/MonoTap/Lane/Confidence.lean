import MonoTap.Document.Value

/-!
# Confidence

How sure a migration is: a score, the tier that the score falls into, and the weighted mean of the
scores of several results.
-/

set_option autoImplicit false

namespace MonoTap.Lane

open Number (Binary64)
open Document (Value)

/-- A number as it was given: whole, or with a fraction. -/
inductive Scalar where
  | whole (n : Int)
  | real (x : Binary64)
  deriving DecidableEq, Repr

namespace Scalar

/-- The nearest floating-point number. -/
def toBinary64 : Scalar → Binary64
  | .whole n => .ofInt n
  | .real x => x

/-- Whether a number is too large for a floating-point number. -/
def isTooLarge : Scalar → Bool
  | .whole n => Binary64.ofInt n == .infinite (n < 0)
  | .real _ => false

/-- The product of two numbers, which is whole if both are. -/
def mul : Scalar → Scalar → Scalar
  | .whole m, .whole n => .whole (m * n)
  | x, y => .real (x.toBinary64.mul y.toBinary64)

/-- Whether a number is at least a floating-point number, without rounding. -/
def atLeast (x : Scalar) (least : Binary64) : Bool :=
  match x with
  | .whole n => least.units ≤ n * (Binary64.unit : Int)
  | .real x => least.le x

/-- The number that a value is. A truth value is 1 or 0. -/
def ofValue? : Value → Option Scalar
  | .int n => some (.whole n)
  | .float x => some (.real x)
  | .bool b => some (.whole (if b then 1 else 0))
  | _ => none

end Scalar

/-- How much review a result needs. -/
inductive Tier where
  | high | standard | low
  deriving DecidableEq, Repr

/-- The word for a tier. -/
def Tier.word : Tier → String
  | .high => "high"
  | .standard => "standard"
  | .low => "low"

/-- The least score of the tier `high`. -/
def highScore : Binary64 := .ofDecimal false 90 (-2)

/-- The least score of the tier `standard`. -/
def standardScore : Binary64 := .ofDecimal false 75 (-2)

/-- The tier of a score. -/
def Tier.ofScore (score : Scalar) : Tier :=
  if score.atLeast highScore then .high
  else if score.atLeast standardScore then .standard
  else .low

/-- Why there is no mean. -/
inductive ScoreFault where
  | missing (key : String)
  | notNumber
  | notRecord
  | tooLarge
  deriving DecidableEq, Repr

/-- The wording of the fault, where it has one. -/
def ScoreFault.message? : ScoreFault → Option String
  | .missing key => some (Text.quoted key)
  | .notNumber => none
  | .notRecord => none
  | .tooLarge => some "int too large to convert to float"

/-- A sum with one more number. -/
def addScalar (sum : Binary64) (x : Scalar) : Except ScoreFault Binary64 :=
  if x.isTooLarge then .error .tooLarge else .ok (sum.add x.toBinary64)

/-- The product of a score and its weight. -/
def weigh (score weight : Scalar) : Except ScoreFault Scalar :=
  match score, weight with
  | .whole m, .whole n => .ok (.whole (m * n))
  | _, _ =>
    if score.isTooLarge || weight.isTooLarge then .error .tooLarge else .ok (score.mul weight)

/-- The sum of the weighted scores and the sum of the weights. -/
structure Sums where
  scores : Binary64
  weights : Binary64
  deriving DecidableEq, Repr

namespace Sums

/-- The sums of no scores. -/
def start : Sums := ⟨.zero, .zero⟩

/-- The sums with one more score. -/
def add (s : Sums) (score weight : Scalar) : Except ScoreFault Sums := do
  let weighted ← weigh score weight
  let scores ← addScalar s.scores weighted
  let weights ← addScalar s.weights weight
  return ⟨scores, weights⟩

/-- The mean. It is zero if the weights do not sum up to more than zero. -/
def mean (s : Sums) : Binary64 :=
  if Binary64.zero.lt s.weights then s.scores.div s.weights else .zero

end Sums

/-- The weighted mean of scores with their weights. -/
def aggregate (scored : List (Scalar × Scalar)) : Except ScoreFault Binary64 :=
  (scored.foldlM (fun (s : Sums) (score, weight) => s.add score weight) Sums.start).map Sums.mean

/-- A weight of one. -/
def unitWeight : Scalar := .real (.ofInt 1)

/-- The weight of a result: that of its rule, or one if the rule has none. -/
def weightOf (weights : Value) (result : Value) : Except ScoreFault Value :=
  match if weights.isVacant then .map [] else weights with
  | .map entries =>
    match result with
    | .map _ =>
      match (result.get? "rule_name").getD (.text "") with
      | .text rule => .ok ((Value.entry? rule entries).getD (.float (.ofInt 1)))
      | .list _ | .map _ => .error .notNumber
      | _ => .ok (.float (.ofInt 1))
    | _ => .error .notRecord
  | _ => .error .notRecord

/-- The score and the weight of a result. -/
def scoredOf (weights : Value) (result : Value) : Except ScoreFault (Scalar × Scalar) := do
  let weight ← weightOf weights result
  match result.get? "confidence" with
  | none => .error (.missing "confidence")
  | some score =>
    match Scalar.ofValue? score, Scalar.ofValue? weight with
    | some s, some w => .ok (s, w)
    | _, _ => .error .notNumber

/-- The sums of some results, each read when its turn comes. -/
def sumResults (weights : Value) (results : List Value) : Except ScoreFault Sums :=
  results.foldlM (fun (s : Sums) result => do
    let (score, weight) ← scoredOf weights result
    s.add score weight) Sums.start

/-- The weighted mean of the scores of results; zero without results. -/
def aggregateResults (weights : Value) (results : List Value) : Except ScoreFault Binary64 :=
  (sumResults weights results).map Sums.mean

theorem aggregate_nil : aggregate [] = .ok .zero := rfl

end MonoTap.Lane

import MonoTap.Lane.Basic

/-!
# The registry of lanes

The known lanes by their ids, in the order in which the ids first came. For a request the best lane
is chosen: of those that are not deprecated the one with the greatest score, and of equal ones the
first. A score has to be above zero, and a lane that cannot tell its score is left out.
-/

set_option autoImplicit false

namespace MonoTap.Lane

open Document (Keyed.get? Keyed.put Value)
open Number (Binary64)

/-- The known lanes by their ids. -/
structure Registry where
  lanes : List (String × Lane)

namespace Registry

/-- No lanes. -/
def empty : Registry := ⟨[]⟩

/-- Enters a lane. One with the same id gives way to it. -/
def register (r : Registry) (lane : Lane) : Registry :=
  ⟨Keyed.put lane.id lane r.lanes⟩

/-- The built-in lanes. -/
def builtIn : Registry := empty.register tap

/-- The ids in order. -/
def ids (r : Registry) : List String := r.lanes.map Prod.fst

/-- The lane with an id. -/
def get? (r : Registry) (id : String) : Option Lane := Keyed.get? id r.lanes

end Registry

/-- Whether the first number is greater than the second. -/
def Scalar.gt (x y : Scalar) : Bool :=
  match x, y with
  | .whole m, .whole n => n < m
  | .real x, .real y => y.lt x
  | .whole m, .real y =>
    match y with
    | .finite .. => y.units < m * (Binary64.unit : Int)
    | .infinite negative => negative
    | .nan => false
  | .real x, .whole n =>
    match x with
    | .finite .. => n * (Binary64.unit : Int) < x.units
    | .infinite negative => !negative
    | .nan => false

/-- The score with which a lane takes part in the choice. -/
def score? (source target : Value) (lane : Lane) : Option Scalar :=
  if lane.deprecated then none else lane.applicability source target

/-- The better of the best so far and a lane. -/
def better (source target : Value) (best : Option Lane × Scalar) (lane : Lane) :
    Option Lane × Scalar :=
  match score? source target lane with
  | some score => if score.gt best.2 then (some lane, score) else best
  | none => best

/-- The lane for a request. -/
def Registry.detect (r : Registry) (source target : Value) : Option Lane :=
  ((r.lanes.map Prod.snd).foldl (better source target) (none, .real .zero)).1

/-- What a list of lanes says about one. -/
def description (lane : Lane) : Value :=
  .record [("lane_id", .text lane.id), ("display_name", .text lane.displayName),
    ("source_frameworks", .texts lane.sourceFrameworks),
    ("target_frameworks", .texts lane.targetFrameworks), ("version", .text lane.version),
    ("deprecated", .bool lane.deprecated),
    ("min_source_version", .optionalText lane.minSourceVersion),
    ("max_source_version", .optionalText lane.maxSourceVersion),
    ("gates", .texts (lane.gates.map fun g => g.definition.name))]

/-- The descriptions of all lanes. -/
def Registry.descriptions (r : Registry) : Value :=
  .list (r.lanes.map fun (_, lane) => lane.description)

/-- A lane found by its id has been entered under it. -/
theorem Registry.get?_register (r : Registry) (lane : Lane) :
    (r.register lane).get? lane.id = some lane :=
  Document.Keyed.get?_put_self lane.id lane r.lanes

end MonoTap.Lane

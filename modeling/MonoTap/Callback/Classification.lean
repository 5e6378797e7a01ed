import MonoTap.Callback.Bucket

/-!
# Classification

Which bucket each statement of a callback goes to. A guard on one of the two parameters is taken
apart: of the branch that runs when a parameter is present, the statements that mention it go to its
bucket and the rest to the end; the other branch goes to the other parameter's bucket as a whole.
Any other statement goes by the first parameter that it mentions, the value before the error.
-/

set_option autoImplicit false

namespace MonoTap.Callback

/-- The two parameters of a callback. -/
structure Parameters where
  value : Binding
  error : Binding
  deriving Repr

namespace Parameters

/-- Whether a binding is one of the two parameters. -/
def contains (p : Parameters) (b : Binding) : Bool :=
  b.same p.value || b.same p.error

/-- The bucket of a statement that is no guard on a parameter. -/
def bucketOf (p : Parameters) (s : Statement) : Bucket :=
  if s.uses p.value then .value
  else if s.uses p.error then .error
  else .termination

end Parameters

/-- What becomes of the branches of a guard: the parameter that the first branch is about, its
bucket, and the bucket of the second branch. -/
structure Targets where
  parameter : Binding
  thenBucket : Bucket
  elseBucket : Bucket
  deriving Repr

/-- The first branch is about the value when the value is present or the error absent, and about the
error otherwise. -/
def Guard.targets (g : Guard) (p : Parameters) : Targets :=
  if g.subject.same p.value == (g.check == .notNull) then ⟨p.value, .value, .error⟩
  else ⟨p.error, .error, .value⟩

/-- The assignments of the statements in the branches of a guard. -/
def Guard.split (g : Guard) (p : Parameters) (arena : Arena) :
    Except NoStatement (List (Bucket × Int)) := do
  let targets := g.targets p
  let first ← g.thenBranch.mapM fun i => do
    let s ← arena.get i
    return (if s.uses targets.parameter then targets.thenBucket else .termination, i)
  return first ++ g.elseBranch.map (targets.elseBucket, ·)

/-- The assignments that a statement of the body gives rise to. -/
def assign (p : Parameters) (arena : Arena) (position : Int) :
    Except NoStatement (List (Bucket × Int)) := do
  let s ← arena.get position
  match s.guard? with
  | some g => if p.contains g.subject then g.split p arena else return [(p.bucketOf s, position)]
  | none => return [(p.bucketOf s, position)]

/-- The assignments of all statements of a body, in order. -/
def assignments (p : Parameters) (arena : Arena) (body : List Int) :
    Except NoStatement (List (Bucket × Int)) :=
  return (← body.mapM (assign p arena)).flatten

/-- The buckets of the statements of a body. -/
def classify (p : Parameters) (arena : Arena) (body : List Int) : Except NoStatement Buckets :=
  (assignments p arena body).map Buckets.ofAssignments

end MonoTap.Callback

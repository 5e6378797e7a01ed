import MonoTap.Callback.Statement

/-!
# Buckets

The three methods of a listener that statements go to, and the positions of the statements of each
in order.
-/

set_option autoImplicit false

namespace MonoTap.Callback

/-- Where a statement goes: to the method called on a value, on an error, or in the end. -/
inductive Bucket where
  | value | error | termination
  deriving DecidableEq, Repr

namespace Bucket

/-- The buckets in their order. -/
def all : List Bucket := [.value, .error, .termination]

/-- The word for a bucket. -/
def word : Bucket → String
  | .value => "value"
  | .error => "error"
  | .termination => "finally"

/-- The bucket with the given word. -/
def ofWord? (word : String) : Option Bucket :=
  all.find? (·.word == word)

/-- The method of a listener that a bucket stands for. -/
def method : Bucket → String
  | .value => "doOnNext"
  | .error => "doOnError"
  | .termination => "doFinally"

/-- The bucket that a method stands for. -/
def ofMethod? (method : String) : Option Bucket :=
  all.find? (·.method == method)

theorem mem_all (b : Bucket) : b ∈ all := by
  cases b <;> decide

theorem ofWord?_word (b : Bucket) : ofWord? b.word = some b := by
  cases b <;> decide

theorem ofMethod?_method (b : Bucket) : ofMethod? b.method = some b := by
  cases b <;> decide

end Bucket

/-- The positions in each bucket. -/
structure Buckets where
  value : List Int
  error : List Int
  termination : List Int
  deriving DecidableEq, Repr

namespace Buckets

/-- No positions at all. -/
def empty : Buckets := ⟨[], [], []⟩

/-- The positions in one bucket. -/
def get (bs : Buckets) : Bucket → List Int
  | .value => bs.value
  | .error => bs.error
  | .termination => bs.termination

/-- Adds a position at the end of a bucket. -/
def add (bs : Buckets) (bucket : Bucket) (position : Int) : Buckets :=
  match bucket with
  | .value => { bs with value := bs.value ++ [position] }
  | .error => { bs with error := bs.error ++ [position] }
  | .termination => { bs with termination := bs.termination ++ [position] }

/-- The number of positions. -/
def size (bs : Buckets) : Nat :=
  bs.value.length + bs.error.length + bs.termination.length

/-- The first bucket that holds a position. -/
def bucketOf? (bs : Buckets) (position : Int) : Option Bucket :=
  Bucket.all.find? fun b => (bs.get b).contains position

/-- The buckets filled by a list of assignments in order. -/
def ofAssignments (assignments : List (Bucket × Int)) : Buckets :=
  assignments.foldl (fun bs (bucket, position) => bs.add bucket position) empty

theorem get_add (bs : Buckets) (b c : Bucket) (i : Int) :
    (bs.add b i).get c = if b = c then bs.get c ++ [i] else bs.get c := by
  cases b <;> cases c <;> simp [add, get]

theorem size_add (bs : Buckets) (b : Bucket) (i : Int) : (bs.add b i).size = bs.size + 1 := by
  cases b <;> simp [add, size] <;> omega

/-- Two results are equal if they agree on every bucket. -/
theorem ext_get {bs cs : Buckets} (h : ∀ b, bs.get b = cs.get b) : bs = cs := by
  cases bs
  cases cs
  have value := h .value
  have error := h .error
  have termination := h .termination
  simp only [get] at value error termination
  simp [value, error, termination]

/-- A bucket holds the positions assigned to it, in the order of the assignments. -/
theorem get_ofAssignments (assignments : List (Bucket × Int)) (b : Bucket) :
    (ofAssignments assignments).get b =
      (assignments.filter (·.1 = b)).map Prod.snd := by
  have run : ∀ (l : List (Bucket × Int)) (bs : Buckets),
      (l.foldl (fun bs (bucket, position) => bs.add bucket position) bs).get b =
        bs.get b ++ (l.filter (·.1 = b)).map Prod.snd := by
    intro l
    induction l with
    | nil => simp
    | cons a l ih =>
      intro bs
      rw [List.foldl_cons, ih, get_add]
      by_cases h : a.1 = b <;> simp [h]
  rw [ofAssignments, run]
  cases b <;> rfl

end Buckets

end MonoTap.Callback

import MonoTap.Text.Utf8

/-!
# Edits

Replacing ranges of bytes. Edits are made in the order of their starts, edits with one start in the
order given; they must not overlap. A position may count from the end: -1 is the last byte.
-/

set_option autoImplicit false

namespace MonoTap.Text

/-- The replacement of the bytes from `start` up to `stop` by a text. -/
structure Edit where
  start : Int
  stop : Int
  replacement : String
  deriving DecidableEq, Repr

/-- Whether the edit lies between two positions. -/
def Edit.within (e : Edit) (start stop : Int) : Bool :=
  start ≤ e.start && e.stop ≤ stop

/-- The edit, seen from a position. -/
def Edit.relativeTo (e : Edit) (origin : Int) : Edit :=
  { e with start := e.start - origin, stop := e.stop - origin }

/-- An edit that starts before the end of the one before it. -/
structure Overlap where
  position : Int
  deriving DecidableEq, Repr

/-- The wording of the error. -/
def Overlap.message (o : Overlap) : String :=
  "Overlapping edit at byte " ++ toString o.position

/-- The offset that a position means in a text of the given size: a negative position counts from
the end, and one that lies outside is moved to the nearer end. -/
def offsetIn (size : Nat) (position : Int) : Nat :=
  if position < 0 then (size + position).toNat else min position.toNat size

/-- The bytes from one position up to another. -/
def between (bs : List UInt8) (start stop : Int) : List UInt8 :=
  let first := offsetIn bs.length start
  (bs.drop first).take (offsetIn bs.length stop - first)

/-- The bytes from a position on. -/
def beyond (bs : List UInt8) (start : Int) : List UInt8 :=
  bs.drop (offsetIn bs.length start)

/-- Makes edits that are in order. The bytes before `cursor` have been dealt with. -/
def splice (source : List UInt8) (cursor : Int) : List Edit → Except Overlap (List UInt8)
  | [] => .ok (beyond source cursor)
  | e :: es =>
    if e.start < cursor then .error ⟨e.start⟩
    else (splice source e.stop es).map fun rest =>
      between source cursor e.start ++ encode e.replacement ++ rest

/-- The edits in the order of their starts. -/
def inOrder (edits : List Edit) : List Edit :=
  edits.mergeSort fun a b => decide (a.start ≤ b.start)

/-- The bytes with the edits made. -/
def applyEdits (source : List UInt8) (edits : List Edit) : Except Overlap (List UInt8) :=
  splice source 0 (inOrder edits)

/-- The text between two positions, with those edits made that lie there. -/
def sliceWithEdits (source : List UInt8) (start stop : Int) (edits : List Edit) :
    Except Overlap String :=
  let inner := (edits.filter (·.within start stop)).map (·.relativeTo start)
  (applyEdits (between source start stop) inner).map fun bs => String.ofList (decodeLossy bs)

/-! ### Positions inside the text -/

theorem offsetIn_natCast {size i : Nat} (h : i ≤ size) : offsetIn size i = i := by
  have nonneg : ¬ (i : Int) < 0 := by omega
  simp only [offsetIn, nonneg, ↓reduceIte, Int.toNat_natCast]
  omega

theorem between_natCast (bs : List UInt8) {i j : Nat} (h : i ≤ j) (hj : j ≤ bs.length) :
    between bs i j = (bs.drop i).take (j - i) := by
  simp only [between, offsetIn_natCast (Nat.le_trans h hj), offsetIn_natCast hj]

theorem beyond_natCast (bs : List UInt8) {i : Nat} (h : i ≤ bs.length) :
    beyond bs i = bs.drop i := by
  simp only [beyond, offsetIn_natCast h]

theorem beyond_zero (bs : List UInt8) : beyond bs 0 = bs := by
  have h := beyond_natCast bs (Nat.zero_le bs.length)
  simpa using h

/-- Without edits nothing changes. -/
theorem applyEdits_nil (source : List UInt8) : applyEdits source [] = .ok source := by
  simp [applyEdits, inOrder, splice, beyond_zero]

end MonoTap.Text

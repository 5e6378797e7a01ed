/-!
# UTF-8

Encoding a text as bytes, and reading bytes back. A byte sequence that is no UTF-8 has a first
fault: the longest prefix at that point that begins a character but does not complete it. Reading
either stops at that fault (`decode`) or puts the replacement character in its place and goes on
(`decodeLossy`).
-/

set_option autoImplicit false

namespace MonoTap.Text

/-- The UTF-8 bytes of a text. -/
def encode (s : String) : List UInt8 :=
  s.toUTF8.data.toList

/-- Why bytes are no UTF-8 at some position. -/
inductive Fault where
  /-- The byte begins no character. -/
  | invalidStart
  /-- A byte that should continue a character does not. -/
  | invalidContinuation
  /-- The bytes end inside a character. -/
  | unexpectedEnd
  deriving DecidableEq, Repr

/-- The result of reading one character: the character or a fault of some width, and the bytes
that follow. -/
inductive Reading where
  | char (c : Char) (rest : List UInt8)
  | fault (cause : Fault) (width : Nat) (rest : List UInt8)

/-- The bytes after the character or the fault. -/
def Reading.rest : Reading → List UInt8
  | .char _ rest => rest
  | .fault _ _ rest => rest

/-- The payload of a continuation byte, or `none` for any other byte. -/
def continuation? (b : UInt8) : Option Nat :=
  if 0x80 ≤ b.toNat && b.toNat ≤ 0xBF then some (b.toNat - 0x80) else none

/-- Reads the remaining `n` continuation bytes of a character whose bits so far are `bits` and
which has taken `width` bytes. -/
def readTail : (n : Nat) → (bits width : Nat) → List UInt8 → Reading
  | 0, bits, _, bs => .char (Char.ofNat bits) bs
  | _ + 1, _, width, [] => .fault .unexpectedEnd width []
  | n + 1, bits, width, b :: bs =>
    match continuation? b with
    | some v => readTail n (bits * 64 + v) (width + 1) bs
    | none => .fault .invalidContinuation width (b :: bs)

/-- Reads the second byte, which must lie in the given range, and then `n` more. The range excludes
overlong forms, surrogates and code points above the last one. -/
def readSecond (n bits : Nat) (low high : Nat) : List UInt8 → Reading
  | [] => .fault .unexpectedEnd 1 []
  | b :: bs =>
    if low ≤ b.toNat && b.toNat ≤ high then readTail n (bits * 64 + (b.toNat - 0x80)) 2 bs
    else .fault .invalidContinuation 1 (b :: bs)

/-- Reads one character whose first byte is `b`. -/
def readChar (b : UInt8) (bs : List UInt8) : Reading :=
  let n := b.toNat
  if n < 0x80 then .char (Char.ofNat n) bs
  else if n < 0xC2 then .fault .invalidStart 1 bs
  else if n < 0xE0 then readSecond 0 (n - 0xC0) 0x80 0xBF bs
  else if n < 0xF0 then
    readSecond 1 (n - 0xE0) (if n == 0xE0 then 0xA0 else 0x80) (if n == 0xED then 0x9F else 0xBF) bs
  else if n < 0xF5 then
    readSecond 2 (n - 0xF0) (if n == 0xF0 then 0x90 else 0x80) (if n == 0xF4 then 0x8F else 0xBF) bs
  else .fault .invalidStart 1 bs

theorem length_rest_readTail (n bits width : Nat) (bs : List UInt8) :
    (readTail n bits width bs).rest.length ≤ bs.length := by
  induction n generalizing bits width bs with
  | zero => simp [readTail, Reading.rest]
  | succ n ih =>
    cases bs with
    | nil => simp [readTail, Reading.rest]
    | cons b bs =>
      simp only [readTail]
      split
      · exact Nat.le_succ_of_le (ih _ _ _)
      · simp [Reading.rest]

theorem length_rest_readSecond (n bits low high : Nat) (bs : List UInt8) :
    (readSecond n bits low high bs).rest.length ≤ bs.length := by
  cases bs with
  | nil => simp [readSecond, Reading.rest]
  | cons b bs =>
    simp only [readSecond]
    split
    · exact Nat.le_succ_of_le (length_rest_readTail _ _ _ _)
    · simp [Reading.rest]

/-- Reading a character never lengthens what is left. -/
theorem length_rest_readChar (b : UInt8) (bs : List UInt8) :
    (readChar b bs).rest.length ≤ bs.length := by
  simp only [readChar]
  repeat' split
  all_goals first | exact length_rest_readSecond _ _ _ _ _ | simp [Reading.rest]

/-- The character that stands for bytes that could not be read. -/
def replacement : Char := Char.ofNat 0xFFFD

/-- Reads bytes as UTF-8, with one replacement character for each fault. -/
def decodeLossy : List UInt8 → List Char
  | [] => []
  | b :: bs =>
    match _h : readChar b bs with
    | .char c rest => c :: decodeLossy rest
    | .fault _ _ rest => replacement :: decodeLossy rest
termination_by bs => bs.length
decreasing_by
  all_goals
    have := length_rest_readChar b bs
    rw [_h] at this
    simp only [Reading.rest] at this
    simp only [List.length_cons]
    omega

/-- The first fault of a byte sequence: where it is, its width, its first byte and its cause. -/
structure DecodeError where
  position : Nat
  width : Nat
  byte : UInt8
  cause : Fault
  deriving DecidableEq, Repr

/-- Reads bytes as UTF-8, or reports the first fault. `position` is the offset of the bytes. -/
def decodeFrom (position : Nat) : List UInt8 → Except DecodeError (List Char)
  | [] => .ok []
  | b :: bs =>
    match _h : readChar b bs with
    | .char c rest =>
      match decodeFrom (position + (bs.length + 1 - rest.length)) rest with
      | .ok cs => .ok (c :: cs)
      | .error e => .error e
    | .fault cause width _ => .error ⟨position, width, b, cause⟩
termination_by bs => bs.length
decreasing_by
  all_goals
    have := length_rest_readChar b bs
    rw [_h] at this
    simp only [Reading.rest] at this
    simp only [List.length_cons]
    omega

/-- Reads bytes as UTF-8, or reports the first fault. -/
def decode (bs : List UInt8) : Except DecodeError String :=
  (decodeFrom 0 bs).map String.ofList

/-- The two hexadecimal digits of a byte. -/
def hexByte (b : UInt8) : String :=
  String.ofList [Nat.digitChar (b.toNat / 16), Nat.digitChar (b.toNat % 16)]

/-- The wording of a cause. -/
def Fault.message : Fault → String
  | .invalidStart => "invalid start byte"
  | .invalidContinuation => "invalid continuation byte"
  | .unexpectedEnd => "unexpected end of data"

/-- The wording of a decoding error: one byte is named by its value, several by their offsets. -/
def DecodeError.message (e : DecodeError) : String :=
  if e.width == 1 then
    s!"'utf-8' codec can't decode byte 0x{hexByte e.byte} in position {e.position}: " ++
      e.cause.message
  else
    s!"'utf-8' codec can't decode bytes in position {e.position}-{e.position + e.width - 1}: " ++
      e.cause.message

end MonoTap.Text

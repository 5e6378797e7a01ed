import MonoTap.Text.Blank
import MonoTap.Text.Utf8

/-!
# Source text

A source is its bytes. Offsets count bytes; rows count line feeds from zero, so the line a reader
sees is one more than the row. `slice` is the bytes between two offsets and `textOf` reads them.
-/

set_option autoImplicit false

namespace MonoTap.Text

/-- A source text, held as its bytes. -/
structure Source where
  bytes : Array UInt8
  deriving Inhabited

namespace Source

/-- The source that holds the UTF-8 bytes of a text. -/
def ofString (s : String) : Source := ⟨s.toUTF8.data⟩

/-- The source that holds the given bytes. -/
def ofBytes (bs : List UInt8) : Source := ⟨bs.toArray⟩

/-- The number of bytes. -/
def size (s : Source) : Nat := s.bytes.size

/-- All bytes in order. -/
def toBytes (s : Source) : List UInt8 := s.bytes.toList

/-- The bytes from `start` up to `stop`. -/
def slice (s : Source) (start stop : Nat) : List UInt8 :=
  (s.bytes.extract start stop).toList

/-- The text from `start` up to `stop`. -/
def textOf (s : Source) (start stop : Nat) : String :=
  String.ofList (decodeLossy (s.slice start stop))

/-- The bytes after the last line feed before `offset`, up to `offset`, from right to left. -/
def lineHead (s : Source) (offset : Nat) : List UInt8 :=
  (s.slice 0 offset).reverse.takeWhile (· != 10)

/-- The offset at which the line holding `offset` starts. -/
def lineStart (s : Source) (offset : Nat) : Nat :=
  min offset s.size - (s.lineHead offset).length

/-- The number of line feeds before `offset`. -/
def row (s : Source) (offset : Nat) : Nat :=
  (s.slice 0 offset).count 10

/-- The number of the line holding `offset`, counted from one. -/
def line (s : Source) (offset : Nat) : Nat :=
  s.row offset + 1

/-- The spaces and tabs at the start of the line holding `offset`. -/
def lineIndent (s : Source) (offset : Nat) : List Char :=
  ((s.slice (s.lineStart offset) s.size).takeWhile (fun b => b == 32 || b == 9)).map
    fun b => Char.ofNat b.toNat

theorem slice_eq (s : Source) (start stop : Nat) :
    s.slice start stop = (s.toBytes.drop start).take (stop - start) := by
  simp [slice, toBytes, Array.toList_extract, List.extract_eq_take_drop]

theorem toBytes_ofBytes (bs : List UInt8) : (ofBytes bs).toBytes = bs := by
  simp [ofBytes, toBytes]

theorem toBytes_ofString (text : String) : (ofString text).toBytes = encode text := rfl

end Source

/-- The line terminator in use, judged by the first line feed: with a carriage return before it the
lines end in both, and else in a line feed. -/
def newlineOf (bs : List UInt8) : String :=
  match (bs.takeWhile (· != 10)).getLast? with
  | some 13 => if bs.contains 10 then "\r\n" else "\n"
  | _ => "\n"

end MonoTap.Text

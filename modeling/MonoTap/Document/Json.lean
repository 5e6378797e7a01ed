import MonoTap.Document.Value
import MonoTap.Number.Digits

/-!
# JSON

Reading and writing JSON. A fault in a text is known by the position at which reading gave up. The
written form has ASCII alone and two spaces for each level.
-/

set_option autoImplicit false

namespace MonoTap.Document.Json

open Number (digitsOf digitsValue exponentOf fractionOf)

/-- What is left of a text, and how much of it has been read. -/
structure Rest where
  chars : List Char
  offset : Nat

/-- The place at which a text is no JSON. -/
structure Fault where
  position : Nat
  deriving DecidableEq, Repr

/-- A step of reading: a result and the rest of the text. -/
abbrev Reader (α : Type) := Rest → Except Fault (α × Rest)

namespace Rest

/-- The rest after `n` more characters. -/
def skip (r : Rest) (n : Nat) : Rest :=
  ⟨r.chars.drop n, r.offset + n⟩

/-- Whether a character is a blank of JSON. -/
def isSpace (c : Char) : Bool :=
  c == ' ' || c == '\t' || c == '\n' || c == '\r'

/-- The rest after blanks. -/
def skipSpaces (r : Rest) : Rest :=
  r.skip (r.chars.takeWhile isSpace).length

end Rest

/-- The value of a hexadecimal digit. -/
def hexDigit? (c : Char) : Option Nat :=
  let n := c.toNat
  if 48 ≤ n && n ≤ 57 then some (n - 48)
  else if 65 ≤ n && n ≤ 70 then some (n - 55)
  else if 97 ≤ n && n ≤ 102 then some (n - 87)
  else none

/-- The value of four hexadecimal digits that do not end the text. -/
def hexUnit? : List Char → Option Nat
  | a :: b :: c :: d :: _ :: _ => do
    return 4096 * (← hexDigit? a) + 256 * (← hexDigit? b) + 16 * (← hexDigit? c) + (← hexDigit? d)
  | _ => none

/-- The character that an escape of one letter stands for. -/
def escaped? : Char → Option Char
  | '"' => some '"'
  | '\\' => some '\\'
  | '/' => some '/'
  | 'b' => some '\x08'
  | 'f' => some '\x0c'
  | 'n' => some '\n'
  | 'r' => some '\r'
  | 't' => some '\t'
  | _ => none

/-- Whether a unit of 16 bits is the first half of a character. -/
def isLeading (unit : Nat) : Bool := 0xD800 ≤ unit && unit < 0xDC00

/-- Whether a unit of 16 bits is the second half of a character. -/
def isTrailing (unit : Nat) : Bool := 0xDC00 ≤ unit && unit < 0xE000

/-- Stands for half a character. -/
def substitute : Char := Char.ofNat 0xFFFD

/-- The character of an escape `\u`, which starts after its `u`, and the length of the rest of the
escape. Two escapes may make up one character. The fault is counted from the `u`. -/
def readUnit (cs : List Char) : Except Nat (Char × Nat) :=
  match hexUnit? cs with
  | none => .error 0
  | some unit =>
    match isLeading unit, cs.drop 4 with
    | true, '\\' :: 'u' :: more =>
      match hexUnit? more with
      | some next =>
        if isTrailing next then
          .ok (Char.ofNat (0x10000 + (unit - 0xD800) * 0x400 + (next - 0xDC00)), 10)
        else .ok (substitute, 4)
      | none => if more.length < 5 then .ok (substitute, 4) else .error 6
    | _, _ => .ok (if isLeading unit || isTrailing unit then substitute else Char.ofNat unit, 4)

/-- Reads the characters of a text up to its closing quote. The text was opened at `opened`. -/
def readText (opened : Nat) : (fuel : Nat) → Rest → List Char → Except Fault (String × Rest)
  | 0, _, _ => .error ⟨opened⟩
  | fuel + 1, r, done =>
    match r.chars with
    | [] => .error ⟨opened⟩
    | '"' :: _ => .ok (String.ofList done.reverse, r.skip 1)
    | ['\\'] => .error ⟨opened⟩
    | '\\' :: 'u' :: more =>
      match readUnit more with
      | .ok (c, length) => readText opened fuel (r.skip (2 + length)) (c :: done)
      | .error within => .error ⟨r.offset + 1 + within⟩
    | '\\' :: c :: _ =>
      match escaped? c with
      | some e => readText opened fuel (r.skip 2) (e :: done)
      | none => .error ⟨r.offset⟩
    | c :: _ =>
      if c.toNat < 32 then .error ⟨r.offset⟩ else readText opened fuel (r.skip 1) (c :: done)

/-- Reads a number. -/
def readNumber : Reader Value := fun r =>
  let negative := r.chars.head? == some '-'
  let unsigned := if negative then r.skip 1 else r
  let whole :=
    match unsigned.chars with
    | '0' :: _ => ['0']
    | cs => digitsOf cs
  if whole.isEmpty then .error ⟨r.offset⟩
  else
    let afterWhole := unsigned.skip whole.length
    let fraction := fractionOf afterWhole.chars
    let afterFraction :=
      if fraction.isEmpty then afterWhole else afterWhole.skip (1 + fraction.length)
    match fraction, exponentOf afterFraction.chars with
    | [], none =>
      let n : Int := digitsValue whole
      .ok (.int (if negative then -n else n), afterFraction)
    | _, exponent =>
      let (length, power) := exponent.getD (0, 0)
      let digits := digitsValue (whole ++ fraction)
      .ok (.float (.ofDecimal negative digits (power - fraction.length)), afterFraction.skip length)

/-- The words that are values. -/
def words : List (String × Value) :=
  [("null", .null), ("true", .bool true), ("false", .bool false), ("NaN", .float .nan),
    ("Infinity", .float (.infinite false)), ("-Infinity", .float (.infinite true))]

/-- Reads a value that is a word or a number. -/
def readAtom : Reader Value := fun r =>
  match words.find? fun (w, _) => w.toList.isPrefixOf r.chars with
  | some (w, v) => .ok (v, r.skip w.length)
  | none => readNumber r

mutual

/-- Reads a value. -/
def readValue : (fuel : Nat) → Reader Value
  | 0, r => .error ⟨r.offset⟩
  | fuel + 1, r =>
    match r.chars with
    | '"' :: _ =>
      (readText r.offset (r.chars.length + 1) (r.skip 1) []).map fun (s, r) => (.text s, r)
    | '[' :: _ =>
      let inside := (r.skip 1).skipSpaces
      match inside.chars with
      | ']' :: _ => .ok (.list [], inside.skip 1)
      | _ => (readItems fuel inside).map fun (vs, r) => (.list vs, r)
    | '\x7b' :: _ =>
      let inside := (r.skip 1).skipSpaces
      match inside.chars with
      | '\x7d' :: _ => .ok (.map [], inside.skip 1)
      | _ => (readEntries fuel inside).map fun (es, r) => (.map es, r)
    | _ => readAtom r

/-- Reads the items of a list, with its closing bracket. -/
def readItems : (fuel : Nat) → Reader (List Value)
  | 0, r => .error ⟨r.offset⟩
  | fuel + 1, r => do
    let (v, after) ← readValue fuel r
    let after := after.skipSpaces
    match after.chars with
    | ']' :: _ => return ([v], after.skip 1)
    | ',' :: _ =>
      let (vs, last) ← readItems fuel (after.skip 1).skipSpaces
      return (v :: vs, last)
    | _ => .error ⟨after.offset⟩

/-- Reads the entries of a map, with its closing brace. -/
def readEntries : (fuel : Nat) → Reader (List (Value × Value))
  | 0, r => .error ⟨r.offset⟩
  | fuel + 1, r =>
    match r.chars with
    | '"' :: _ => do
      let (key, after) ← readText r.offset (r.chars.length + 1) (r.skip 1) []
      let after := after.skipSpaces
      match after.chars with
      | ':' :: _ =>
        let (v, after) ← readValue fuel (after.skip 1).skipSpaces
        let after := after.skipSpaces
        match after.chars with
        | '\x7d' :: _ => return ([(.text key, v)], after.skip 1)
        | ',' :: _ =>
          let (es, last) ← readEntries fuel (after.skip 1).skipSpaces
          return ((.text key, v) :: es, last)
        | _ => .error ⟨after.offset⟩
      | _ => .error ⟨after.offset⟩
    | _ => .error ⟨r.offset⟩

end

/-- The value of a text. A mark of byte order at its start does not count. -/
def parse (text : String) : Except Fault Value := do
  let chars :=
    match text.toList with
    | c :: cs => if c.toNat == 0xFEFF then cs else c :: cs
    | [] => []
  let start : Rest := Rest.skipSpaces ⟨chars, 0⟩
  let (v, after) ← readValue (chars.length + 1) start
  let after := after.skipSpaces
  if after.chars.isEmpty then return v else .error ⟨after.offset⟩

/-! ### Writing -/

/-- An escape of a unit of 16 bits. -/
def unitEscape (n : Nat) : List Char :=
  '\\' :: 'u' :: Text.hexPadded 4 n

/-- The written form of a character. -/
def writeChar (c : Char) : List Char :=
  let n := c.toNat
  if c == '"' then ['\\', '"']
  else if c == '\\' then ['\\', '\\']
  else if c == '\n' then ['\\', 'n']
  else if c == '\r' then ['\\', 'r']
  else if c == '\t' then ['\\', 't']
  else if c == '\x08' then ['\\', 'b']
  else if c == '\x0c' then ['\\', 'f']
  else if 32 ≤ n && n ≤ 126 then [c]
  else if n < 0x10000 then unitEscape n
  else unitEscape (0xD800 + (n - 0x10000) / 0x400) ++ unitEscape (0xDC00 + (n - 0x10000) % 0x400)

/-- The written form of a text. -/
def writeText (s : String) : List Char :=
  '"' :: s.toList.flatMap writeChar ++ ['"']

/-- The start of a line at a level. -/
def lineAt (level : Nat) : List Char :=
  '\n' :: List.replicate (2 * level) ' '

mutual

/-- The written form of a value at a level. -/
def write (level : Nat) : Value → List Char
  | .null => "null".toList
  | .bool b => (if b then "true" else "false").toList
  | .int n => (toString n).toList
  | .float x =>
    match x with
    | .finite .. => x.text.toList
    | .infinite negative => (if negative then "-Infinity" else "Infinity").toList
    | .nan => "NaN".toList
  | .text s | .timestamp s => writeText s
  | .list [] => ['[', ']']
  | .list (v :: vs) => '[' :: writeItems (level + 1) (v :: vs) ++ lineAt level ++ [']']
  | .map [] => ['\x7b', '\x7d']
  | .map (e :: es) => '\x7b' :: writeEntries (level + 1) (e :: es) ++ lineAt level ++ ['\x7d']

/-- The written form of items, each on a line of its own. -/
def writeItems (level : Nat) : List Value → List Char
  | [] => []
  | [v] => lineAt level ++ write level v
  | v :: vs => lineAt level ++ write level v ++ [','] ++ writeItems level vs

/-- The written form of entries, each on a line of its own. -/
def writeEntries (level : Nat) : List (Value × Value) → List Char
  | [] => []
  | [(k, v)] => lineAt level ++ writeText k.display ++ [':', ' '] ++ write level v
  | (k, v) :: es =>
    lineAt level ++ writeText k.display ++ [':', ' '] ++ write level v ++ [','] ++
      writeEntries level es

end

/-- The text of a value. -/
def render (v : Value) : String :=
  String.ofList (write 0 v)

end MonoTap.Document.Json

/-!
# Places in a YAML text

What is left of a text, and the line and the column that reading has come to. Beside the usual ends
of lines a text may have the next-line character and the two separators of lines and paragraphs.
-/

set_option autoImplicit false

namespace MonoTap.Document.Yaml

/-- Why a text has no value: it is no YAML, a word is not one of those that its type has, or a part
of it is out of range. -/
inductive Fault where
  | malformed
  | unknownWord (word : String)
  | outOfRange (message : String)
  deriving DecidableEq, Repr

/-- Whether a character ends a line. -/
def isBreak (c : Char) : Bool :=
  c == '\n' || c == '\r' || c.toNat == 0x85 || c.toNat == 0x2028 || c.toNat == 0x2029

/-- Whether a character is the mark of byte order, which takes up no column. -/
def isByteOrderMark (c : Char) : Bool := c.toNat == 0xFEFF

/-- Whether a character is a space or a tab. -/
def isBlank (c : Char) : Bool := c == ' ' || c == '\t'

/-- Whether a line ends here. -/
def endsLine : Option Char → Bool
  | none => true
  | some c => isBreak c

/-- Whether the line ends or a space comes. -/
def endsWord (c : Option Char) : Bool := endsLine c || c == some ' '

/-- Whether the line ends or a blank comes. -/
def separates (c : Option Char) : Bool := endsWord c || c == some '\t'

/-- What is left of a text, the number of characters read, and the line and the column, each counted
from zero. -/
structure Place where
  rest : List Char
  index : Nat
  line : Nat
  column : Nat
  deriving DecidableEq, Repr

namespace Place

/-- The start of a text. -/
def start (text : List Char) : Place := ⟨text, 0, 0, 0⟩

/-- The next character. -/
def peek (p : Place) : Option Char := p.rest.head?

/-- The character after `n` more. -/
def peekAt (p : Place) (n : Nat) : Option Char := p.rest[n]?

/-- The place after the next character. A carriage return with a line feed after it ends no line. -/
def next (p : Place) : Place :=
  match p.rest with
  | [] => p
  | c :: cs =>
    if isBreak c && !(c == '\r' && cs.head? == some '\n') then ⟨cs, p.index + 1, p.line + 1, 0⟩
    else if isByteOrderMark c then ⟨cs, p.index + 1, p.line, p.column⟩
    else ⟨cs, p.index + 1, p.line, p.column + 1⟩

/-- The place after `n` characters. -/
def skip (p : Place) : (n : Nat) → Place
  | 0 => p
  | n + 1 => p.next.skip n

/-- The next characters as long as they are of a kind, and the place after them. -/
def takeWhile (p : Place) (kind : Char → Bool) : List Char × Place :=
  let word := p.rest.takeWhile kind
  (word, p.skip word.length)

/-- The place after the next characters of a kind. -/
def skipWhile (p : Place) (kind : Char → Bool) : Place :=
  (p.takeWhile kind).2

/-- The place after spaces. -/
def skipSpaces (p : Place) : Place := p.skipWhile (· == ' ')

/-- The end of a line and the place after it. All but the two separators count as a line feed. -/
def lineBreak? (p : Place) : Option (Char × Place) :=
  match p.rest with
  | '\r' :: '\n' :: _ => some ('\n', p.skip 2)
  | c :: _ =>
    if isBreak c then
      some (if c.toNat == 0x2028 || c.toNat == 0x2029 then c else '\n', p.next)
    else none
  | [] => none

/-- Whether three dashes stand here as a word. -/
def atStartMark (p : Place) : Bool :=
  p.rest.take 3 == ['-', '-', '-'] && separates (p.peekAt 3)

/-- Whether three points stand here as a word. -/
def atEndMark (p : Place) : Bool :=
  p.rest.take 3 == ['.', '.', '.'] && separates (p.peekAt 3)

/-- Whether a document may begin or end here. -/
def atMark (p : Place) : Bool := p.atStartMark || p.atEndMark

/-- The ends of the lines that come, with the spaces after each of them up to the column `limit`. -/
def emptyLines (limit : Nat) : (fuel : Nat) → Place → List Char × Place
  | 0, p => ([], p)
  | fuel + 1, p =>
    let margin := min (limit - p.column) (p.rest.takeWhile (· == ' ')).length
    let p := p.skip margin
    match p.lineBreak? with
    | some (c, after) =>
      let (more, last) := emptyLines limit fuel after
      (c :: more, last)
    | none => ([], p)

theorem index_next (p : Place) (c : Char) (cs : List Char) (h : p.rest = c :: cs) :
    p.next.index = p.index + 1 ∧ p.next.rest = cs := by
  simp only [next, h]
  split
  · simp
  · split <;> simp

/-- Skipping characters leaves the others. -/
theorem rest_skip (p : Place) (n : Nat) : (p.skip n).rest = p.rest.drop n := by
  induction n generalizing p with
  | zero => rfl
  | succ n ih =>
    rw [skip, ih]
    cases h : p.rest with
    | nil => simp [next, h]
    | cons c cs => simp [(p.index_next c cs h).2]

/-- What is taken and what is left make up the text. -/
theorem takeWhile_append (p : Place) (kind : Char → Bool) :
    (p.takeWhile kind).1 ++ (p.takeWhile kind).2.rest = p.rest := by
  have length (l : List Char) : l.takeWhile kind ++ l.drop (l.takeWhile kind).length = l := by
    induction l with
    | nil => rfl
    | cons c cs ih => by_cases h : kind c <;> simp [h, ih]
  simp only [takeWhile, rest_skip]
  exact length p.rest

end Place

end MonoTap.Document.Yaml

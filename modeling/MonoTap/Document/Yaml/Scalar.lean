import MonoTap.Document.Yaml.Place

/-!
# Scalars of a YAML text

The texts that plain, quoted and block scalars stand for. In plain and quoted scalars, and in folded
blocks, the end of a line stands for a space, and an empty line for the end of a line.
-/

set_option autoImplicit false

namespace MonoTap.Document.Yaml

/-- What some ends of lines in a row stand for in folded text. -/
def fold (first : Char) (more : List Char) : List Char :=
  if first != '\n' then first :: more
  else if more.isEmpty then [' ']
  else more

/-! ### Plain scalars -/

/-- Whether a character ends an entry of a flow collection. -/
def isFlowMark (c : Char) : Bool :=
  [',', '[', ']', '\x7b', '\x7d'].contains c

/-- The word of a plain scalar at the start of a text. A colon with a blank after it ends the word.
In a flow collection its marks do so too. -/
def plainWord (flow : Bool) : List Char → List Char
  | [] => []
  | c :: cs =>
    let isColon := c == ':' && (separates cs.head? || (flow && cs.head?.any isFlowMark))
    if separates (some c) || isColon || (flow && (isFlowMark c || c == '?')) then []
    else c :: plainWord flow cs

/-- The ends of the lines that come, with the spaces after each of them. Nothing if a mark of a
document comes. -/
def plainBreaks : (fuel : Nat) → Place → Option (List Char) × Place
  | 0, p => (some [], p)
  | fuel + 1, p =>
    let p := p.skipSpaces
    match p.lineBreak? with
    | none => (some [], p)
    | some (c, p) =>
      if p.atMark then (none, p)
      else
        let (more, last) := plainBreaks fuel p
        (more.map (c :: ·), last)

/-- What comes between two words of a plain scalar. -/
structure Gap where
  /-- The text that stands for it. If it is empty the scalar ends. -/
  text : List Char
  /-- Whether a line ended there. -/
  broken : Bool
  after : Place

/-- The gap that comes. -/
def plainGap (p : Place) : Gap :=
  let (spaces, p) := p.takeWhile (· == ' ')
  match p.lineBreak? with
  | none => ⟨spaces, false, p⟩
  | some (c, p) =>
    if p.atMark then ⟨[], true, p⟩
    else
      match plainBreaks p.rest.length p with
      | (some more, p) => ⟨fold c more, true, p⟩
      | (none, p) => ⟨[], true, p⟩

/-- The words of a plain scalar and the gaps between them, after a gap. Lines of a scalar outside of
flow collections begin at the column `margin` or later. The last gap is the one after the scalar. -/
def plainWords (flow : Bool) (margin : Nat) : (fuel : Nat) → Gap → List Char × Gap
  | 0, gap => ([], gap)
  | fuel + 1, gap =>
    let p := gap.after
    let word := plainWord flow p.rest
    if p.peek == some '#' || word.isEmpty then ([], gap)
    else
      let next := plainGap (p.skip word.length)
      let ends := next.text.isEmpty || next.after.peek == some '#' ||
        (!flow && next.after.column < margin)
      if ends then (gap.text ++ word, next)
      else
        let (more, last) := plainWords flow margin fuel next
        (gap.text ++ word ++ more, last)

/-- A plain scalar: its text and the gap after it. -/
def plainScalar (flow : Bool) (margin : Nat) (p : Place) : List Char × Gap :=
  plainWords flow margin (p.rest.length + 1) ⟨[], false, p⟩

/-! ### Quoted scalars -/

/-- The ends of the lines that come, with the blanks around them. A mark of a document is a fault.
-/
def quotedBreaks : (fuel : Nat) → Place → Except Fault (List Char × Place)
  | 0, p => .ok ([], p)
  | fuel + 1, p =>
    if p.atMark then .error .malformed
    else
      let p := p.skipWhile isBlank
      match p.lineBreak? with
      | none => .ok ([], p)
      | some (c, p) => (quotedBreaks fuel p).map fun (more, last) => (c :: more, last)

/-- The blanks or the ends of lines between two words of a quoted scalar. -/
def quotedGap (p : Place) : Except Fault (List Char × Place) :=
  let (blanks, p) := p.takeWhile isBlank
  if p.rest.isEmpty then .error .malformed
  else
    match p.lineBreak? with
    | none => .ok (blanks, p)
    | some (c, p) => (quotedBreaks p.rest.length p).map fun (more, last) => (fold c more, last)

/-- The character that an escape of one character stands for. -/
def escaped? (c : Char) : Option Char :=
  match c with
  | '0' => some '\x00'
  | 'a' => some '\x07'
  | 'b' => some '\x08'
  | 't' => some '\t'
  | '\t' => some '\t'
  | 'n' => some '\n'
  | 'v' => some '\x0b'
  | 'f' => some '\x0c'
  | 'r' => some '\r'
  | 'e' => some '\x1b'
  | ' ' => some ' '
  | '"' => some '"'
  | '\\' => some '\\'
  | '/' => some '/'
  | 'N' => some (Char.ofNat 0x85)
  | '_' => some (Char.ofNat 0xA0)
  | 'L' => some (Char.ofNat 0x2028)
  | 'P' => some (Char.ofNat 0x2029)
  | _ => none

/-- The number of hexadecimal digits after a letter of an escape. -/
def escapeLength? (c : Char) : Option Nat :=
  match c with
  | 'x' => some 2
  | 'u' => some 4
  | 'U' => some 8
  | _ => none

/-- The value of a hexadecimal digit. -/
def hexDigit? (c : Char) : Option Nat :=
  if '0' ≤ c ∧ c ≤ '9' then some (c.toNat - 48)
  else if 'A' ≤ c ∧ c ≤ 'F' then some (c.toNat - 55)
  else if 'a' ≤ c ∧ c ≤ 'f' then some (c.toNat - 87)
  else none

/-- The number that hexadecimal digits stand for. -/
def hexValue? (digits : List Char) : Option Nat :=
  digits.foldlM (fun (n : Nat) c => (hexDigit? c).map (16 * n + ·)) 0

/-- The character with a number. A surrogate is replaced. -/
def charOf (n : Nat) : Except Fault Char :=
  if 0x10FFFF < n then .error (.outOfRange "chr() arg not in range(0x110000)")
  else if 0xD800 ≤ n && n < 0xE000 then .ok (Char.ofNat 0xFFFD)
  else .ok (Char.ofNat n)

/-- The text that an escape stands for, read after its backslash. An escaped end of a line stands
for nothing. -/
def readEscape (p : Place) : Except Fault (List Char × Place) :=
  match p.peek with
  | none => .error .malformed
  | some c =>
    match escaped? c, escapeLength? c with
    | some e, _ => .ok ([e], p.next)
    | none, some n =>
      let digits := p.next.rest.take n
      match hexValue? digits with
      | some value =>
        if digits.length == n then (charOf value).map fun e => ([e], p.next.skip n)
        else .error .malformed
      | none => .error .malformed
    | none, none =>
      match p.lineBreak? with
      | some (_, p) => quotedBreaks p.rest.length p
      | none => .error .malformed

/-- The characters of a quoted scalar up to a blank, the end of a line or the closing quote. -/
def quotedWord (double : Bool) : (fuel : Nat) → Place → Except Fault (List Char × Place)
  | 0, p => .ok ([], p)
  | fuel + 1, p =>
    match p.rest with
    | [] => .ok ([], p)
    | c :: cs =>
      if separates (some c) then .ok ([], p)
      else if c == '\'' && !double then
        if cs.head? == some '\'' then
          (quotedWord double fuel (p.skip 2)).map fun (more, last) => ('\'' :: more, last)
        else .ok ([], p)
      else if c == '"' && double then .ok ([], p)
      else if c == '\\' && double then do
        let (e, p) ← readEscape p.next
        let (more, last) ← quotedWord double fuel p
        return (e ++ more, last)
      else (quotedWord double fuel p.next).map fun (more, last) => (c :: more, last)

/-- The words of a quoted scalar with the gaps between them, up to the closing quote. -/
def quotedWords (quote : Char) : (fuel : Nat) → Place → Except Fault (List Char × Place)
  | 0, _ => .error .malformed
  | fuel + 1, p => do
    let (word, p) ← quotedWord (quote == '"') p.rest.length p
    if p.peek == some quote then return (word, p.next)
    else
      let (gap, p) ← quotedGap p
      let (more, last) ← quotedWords quote fuel p
      return (word ++ gap ++ more, last)

/-- A quoted scalar, from its opening quote on. -/
def quotedScalar (quote : Char) (p : Place) : Except Fault (List Char × Place) :=
  quotedWords quote (p.rest.length + 1) p.next

/-! ### Block scalars -/

/-- The place after the rest of a line that holds nothing but a comment. -/
def skipComment (p : Place) : Except Fault Place :=
  let p := p.skipSpaces
  let p := if p.peek == some '#' then p.skipWhile (!isBreak ·) else p
  if endsLine p.peek then .ok (p.lineBreak?.elim p Prod.snd) else .error .malformed

/-- The ends of lines after a block scalar: one is kept if nothing is said, all of them or none. -/
inductive Chomping where
  | clip | strip | keep
  deriving DecidableEq, Repr

/-- The chomping with the given sign. -/
def Chomping.ofSign? : Option Char → Option Chomping
  | some '+' => some .keep
  | some '-' => some .strip
  | _ => none

/-- The increment of the margin that comes, if there is one. -/
def readIncrement (p : Place) : Except Fault (Option Nat × Place) :=
  match p.peek with
  | some c =>
    if c == '0' then .error .malformed
    else if c.isDigit then .ok (some (c.toNat - 48), p.next)
    else .ok (none, p)
  | none => .ok (none, p)

/-- The sign and the increment of a block scalar, in any order. -/
def readHeader (p : Place) : Except Fault ((Chomping × Option Nat) × Place) := do
  let (header, p) ← match Chomping.ofSign? p.peek with
    | some chomping => (readIncrement p.next).map fun (n, p) => ((chomping, n), p)
    | none => (readIncrement p).map fun (n, p) =>
      match n, Chomping.ofSign? p.peek with
      | some n, some chomping => ((chomping, some n), p.next)
      | n, _ => ((.clip, n), p)
  if endsWord p.peek then return (header, p) else throw .malformed

/-- The empty lines at the start of a block scalar and the greatest column in them or before the
first other line. -/
def leadingLines : (fuel : Nat) → (widest : Nat) → Place → List Char × Nat × Place
  | 0, widest, p => ([], widest, p)
  | fuel + 1, widest, p =>
    match p.lineBreak? with
    | some (c, p) =>
      let (more, widest, last) := leadingLines fuel widest p
      (c :: more, widest, last)
    | none =>
      if p.peek == some ' ' then leadingLines fuel (max widest p.next.column) p.next
      else ([], widest, p)

/-- The lines of a block scalar and the ends of lines before each of them. -/
structure BlockLines where
  text : List Char
  /-- The end of the last line. -/
  last : List Char
  /-- The ends of lines after it. -/
  trailing : List Char
  after : Place

/-- The lines of a block scalar that begin at the column `indent`, after the ends of lines
`leading`. -/
def blockLines (folded : Bool) (indent : Nat) : (fuel : Nat) → (leading : List Char) → Place →
    BlockLines
  | 0, leading, p => ⟨[], [], leading, p⟩
  | fuel + 1, leading, p =>
    if p.column != indent || p.rest.isEmpty then ⟨[], [], leading, p⟩
    else
      let flush := !p.peek.any isBlank
      let (line, p) := p.takeWhile (!isBreak ·)
      let (ending, p) := match p.lineBreak? with
        | some (c, p) => ([c], p)
        | none => ([], p)
      let (breaks, p) := p.emptyLines indent (p.rest.length + 1)
      if p.column == indent && !p.rest.isEmpty then
        let joint :=
          if folded && ending == ['\n'] && flush && !p.peek.any isBlank then
            if breaks.isEmpty then [' '] else []
          else ending
        let more := blockLines folded indent fuel breaks p
        { more with text := leading ++ line ++ joint ++ more.text }
      else ⟨leading ++ line, ending, breaks, p⟩

/-- A block scalar, from its mark on. Its lines begin at the column `margin` or later. -/
def blockScalar (folded : Bool) (margin : Nat) (p : Place) : Except Fault (List Char × Place) := do
  let ((chomping, increment), p) ← readHeader p.next
  let p ← skipComment p
  let least := max margin 1
  let fuel := p.rest.length + 1
  let (leading, indent, p) := match increment with
    | none =>
      let (leading, widest, p) := leadingLines fuel 0 p
      (leading, max least widest, p)
    | some n =>
      let indent := least + n - 1
      let (leading, p) := p.emptyLines indent fuel
      (leading, indent, p)
  let lines := blockLines folded indent fuel leading p
  let text := match chomping with
    | .strip => lines.text
    | .clip => lines.text ++ lines.last
    | .keep => lines.text ++ lines.last ++ lines.trailing
  return (text, lines.after)

end MonoTap.Document.Yaml

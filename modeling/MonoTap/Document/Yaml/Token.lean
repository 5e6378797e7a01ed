import MonoTap.Document.Yaml.Property

/-!
# Tokens of a YAML text

The signs and scalars of a text in order. Where a line begins further to the right than before, a
block begins, and where one begins further to the left, blocks end. What turns out to be a key of a
map gets its mark when the colon after it comes; until then only its position is known.
-/

set_option autoImplicit false

namespace MonoTap.Document.Yaml

/-- A token. -/
inductive Token where
  | directive (d : Directive)
  | documentStart
  | documentEnd
  | blockList
  | blockMap
  | blockEnd
  | openList
  | closeList
  | openMap
  | closeMap
  | dash
  | comma
  | key
  | value
  | alias (name : String)
  | anchor (name : String)
  | tag (t : Tag)
  | scalar (plain : Bool) (text : String)
  deriving DecidableEq, Repr

/-- The start of what may turn out to be a key. It has to be one if it is `required`. -/
structure KeyStart where
  /-- The number of tokens before it. -/
  position : Nat
  required : Bool
  place : Place

/-- The greatest number of characters of a key. -/
def maxKeyLength : Nat := 1024

/-- How far the reading of tokens has come. -/
structure Scan where
  place : Place
  tokens : Array Token
  /-- The number of flow collections around the place. -/
  depth : Nat
  /-- The least column of what belongs to the innermost block. -/
  margin : Nat
  /-- The margins of the blocks around it. -/
  outer : List Nat
  /-- Whether a key may begin here. -/
  keyAllowed : Bool
  /-- The start of a possible key at each depth. -/
  keys : List (Nat × KeyStart)

namespace Scan

/-- The start of a text. -/
def start (text : List Char) : Scan := ⟨.start text, #[], 0, 0, [], true, []⟩

/-- Whether the place is inside of a flow collection. -/
def inFlow (s : Scan) : Bool := 0 < s.depth

/-- Adds a token and goes on at a place. -/
def push (s : Scan) (t : Token) (p : Place) : Scan :=
  { s with tokens := s.tokens.push t, place := p }

/-- Puts a token before those from a position on. -/
def insertAt (s : Scan) (position : Nat) (t : Token) : Scan :=
  { s with tokens := (s.tokens.take position).push t ++ s.tokens.drop position }

/-- The place after blanks, comments and ends of lines, at which a key may begin if a line ended. -/
def skipToToken (s : Scan) : (fuel : Nat) → Scan
  | 0 => s
  | fuel + 1 =>
    let p := s.place.skipSpaces
    let p := if p.peek == some '#' then p.skipWhile (!isBreak ·) else p
    match p.lineBreak? with
    | some (_, p) => { s with place := p, keyAllowed := s.keyAllowed || !s.inFlow }.skipToToken fuel
    | none => { s with place := p }

/-- Gives up the possible keys that are too long or on an earlier line. -/
def dropStaleKeys (s : Scan) : Except Fault Scan :=
  let isStale : KeyStart → Bool := fun k =>
    k.place.line != s.place.line || maxKeyLength < s.place.index - k.place.index
  if s.keys.any fun (_, k) => isStale k && k.required then .error .malformed
  else .ok { s with keys := s.keys.filter fun (_, k) => !isStale k }

/-- Gives up the possible key at this depth. -/
def dropKey (s : Scan) : Except Fault Scan :=
  if s.keys.any fun (depth, k) => depth == s.depth && k.required then .error .malformed
  else .ok { s with keys := s.keys.filter fun (depth, _) => depth != s.depth }

/-- Takes down that a key may begin here. -/
def saveKey (s : Scan) : Except Fault Scan :=
  if s.keyAllowed then do
    let required := !s.inFlow && s.margin == s.place.column + 1
    let s ← s.dropKey
    return { s with keys := (s.depth, ⟨s.tokens.size, required, s.place⟩) :: s.keys }
  else .ok s

/-- Ends the blocks with a margin greater than `least`. -/
def unwind (s : Scan) (least : Nat) : Scan :=
  if s.inFlow then s
  else
    let rec go (margin : Nat) (tokens : Array Token) : List Nat → Nat × Array Token × List Nat
      | [] => (margin, tokens, [])
      | m :: ms =>
        if least < margin then go m (tokens.push .blockEnd) ms else (margin, tokens, m :: ms)
    let (margin, tokens, outer) := go s.margin s.tokens s.outer
    { s with margin, tokens, outer }

/-- Begins a block at a column if it is further to the right, and says whether it did. -/
def indentTo (s : Scan) (column : Nat) : Bool × Scan :=
  if s.margin ≤ column then (true, { s with margin := column + 1, outer := s.margin :: s.outer })
  else (false, s)

/-- Begins a block at this place if it is further to the right. A new item or key has to be allowed
here. -/
def beginBlock (s : Scan) (t : Token) : Except Fault Scan :=
  if s.inFlow then .ok s
  else if s.keyAllowed then
    match s.indentTo s.place.column with
    | (true, s) => .ok (s.push t s.place)
    | (false, s) => .ok s
  else .error .malformed

/-- Reads a token that begins or ends a document. -/
def mark (s : Scan) (t : Token) : Except Fault Scan := do
  let s ← (s.unwind 0).dropKey
  return { s with keyAllowed := false }.push t (s.place.skip 3)

/-- Reads a directive. -/
def directive (s : Scan) : Except Fault Scan := do
  let s ← (s.unwind 0).dropKey
  let (d, p) ← readDirective s.place
  return { s with keyAllowed := false }.push (.directive d) p

/-- Reads the sign that begins a flow collection. -/
def openFlow (s : Scan) (t : Token) : Except Fault Scan := do
  let s ← s.saveKey
  return { s with depth := s.depth + 1, keyAllowed := true }.push t s.place.next

/-- Reads the sign that ends a flow collection. -/
def closeFlow (s : Scan) (t : Token) : Except Fault Scan := do
  let s ← s.dropKey
  if s.inFlow then
    return { s with depth := s.depth - 1, keyAllowed := false }.push t s.place.next
  else throw .malformed

/-- Reads the sign between the entries of a flow collection. -/
def comma (s : Scan) : Except Fault Scan := do
  let s ← s.dropKey
  return { s with keyAllowed := true }.push .comma s.place.next

/-- Reads the sign of an item of a list. -/
def dash (s : Scan) : Except Fault Scan := do
  let s ← (← s.beginBlock .blockList).dropKey
  return { s with keyAllowed := true }.push .dash s.place.next

/-- Reads the sign of a key. -/
def keySign (s : Scan) : Except Fault Scan := do
  let s ← (← s.beginBlock .blockMap).dropKey
  return { s with keyAllowed := !s.inFlow }.push .key s.place.next

/-- Reads the sign of a value. What was a possible key is one now. -/
def valueSign (s : Scan) : Except Fault Scan :=
  match s.keys.find? (·.1 == s.depth) with
  | some (_, k) =>
    let s := { s with keys := s.keys.filter (·.1 != s.depth), keyAllowed := false }.insertAt
      k.position .key
    let s :=
      if s.inFlow then s
      else
        match s.indentTo k.place.column with
        | (true, s) => s.insertAt k.position .blockMap
        | (false, s) => s
    .ok (s.push .value s.place.next)
  | none => do
    let s ← (← s.beginBlock .blockMap).dropKey
    return { s with keyAllowed := !s.inFlow }.push .value s.place.next

/-- Reads an alias or an anchor. -/
def name (s : Scan) (t : String → Token) : Except Fault Scan := do
  let s ← s.saveKey
  let (name, p) ← readName s.place
  return { s with keyAllowed := false }.push (t name) p

/-- Reads a tag. -/
def tag (s : Scan) : Except Fault Scan := do
  let s ← s.saveKey
  let (t, p) ← readTag s.place
  return { s with keyAllowed := false }.push (.tag t) p

/-- Reads a block scalar. -/
def block (s : Scan) (folded : Bool) : Except Fault Scan := do
  let s ← s.dropKey
  let (text, p) ← blockScalar folded s.margin s.place
  return { s with keyAllowed := true }.push (.scalar false (String.ofList text)) p

/-- Reads a quoted scalar. -/
def quoted (s : Scan) (quote : Char) : Except Fault Scan := do
  let s ← s.saveKey
  let (text, p) ← quotedScalar quote s.place
  return { s with keyAllowed := false }.push (.scalar false (String.ofList text)) p

/-- Reads a plain scalar. A key may begin after it if a line ended there. -/
def plain (s : Scan) : Except Fault Scan := do
  let s ← s.saveKey
  let (text, gap) := plainScalar s.inFlow s.margin s.place
  return { s with keyAllowed := gap.broken }.push (.scalar true (String.ofList text)) gap.after

/-- Whether a plain scalar may begin with a character before another one. -/
def beginsPlain (s : Scan) (c : Char) : Bool :=
  let signs := ['-', '?', ':', ',', '[', ']', '\x7b', '\x7d', '#', '&', '*', '!', '|', '>', '\'',
    '"', '%', '@', '\x60']
  !(separates (some c) || signs.contains c) ||
    (!separates (s.place.peekAt 1) && (c == '-' || (!s.inFlow && (c == '?' || c == ':'))))

/-- Reads the token that begins with a character. -/
def token (s : Scan) (c : Char) : Except Fault Scan :=
  let alone := separates (s.place.peekAt 1)
  let first := s.place.column == 0
  if c == '%' && first then s.directive
  else if first && s.place.atStartMark then s.mark .documentStart
  else if first && s.place.atEndMark then s.mark .documentEnd
  else if c == '[' then s.openFlow .openList
  else if c == '\x7b' then s.openFlow .openMap
  else if c == ']' then s.closeFlow .closeList
  else if c == '\x7d' then s.closeFlow .closeMap
  else if c == ',' then s.comma
  else if c == '-' && alone then s.dash
  else if c == '?' && (s.inFlow || alone) then s.keySign
  else if c == ':' && (s.inFlow || alone) then s.valueSign
  else if c == '*' then s.name .alias
  else if c == '&' then s.name .anchor
  else if c == '!' then s.tag
  else if c == '|' && !s.inFlow then s.block false
  else if c == '>' && !s.inFlow then s.block true
  else if c == '\'' || c == '"' then s.quoted c
  else if s.beginsPlain c then s.plain
  else .error .malformed

/-- Reads all tokens up to the end of the text. -/
def run : (fuel : Nat) → Scan → Except Fault (List Token)
  | 0, _ => .error .malformed
  | fuel + 1, s => do
    let s := s.skipToToken (s.place.rest.length + 1)
    let s ← s.dropStaleKeys
    let s := s.unwind (s.place.column + 1)
    match s.place.peek with
    | some c => run fuel (← s.token c)
    | none => return (← (s.unwind 0).dropKey).tokens.toList

end Scan

/-- Whether a character may stand in a text. -/
def isPrintable (c : Char) : Bool :=
  let n := c.toNat
  n == 9 || n == 10 || n == 13 || (32 ≤ n && n ≤ 126) || n == 0x85 || (0xA0 ≤ n && n ≤ 0xD7FF) ||
    (0xE000 ≤ n && n ≤ 0xFFFD) || 0x10000 ≤ n

/-- The tokens of a text. A mark of byte order at its start does not count. -/
def tokens (text : List Char) : Except Fault (List Token) :=
  if text.all isPrintable then
    let s := Scan.start text
    let s := if text.head?.any isByteOrderMark then { s with place := s.place.next } else s
    s.run (text.length + 1)
  else .error .malformed

end MonoTap.Document.Yaml

import MonoTap.Document.Yaml.Scalar
import MonoTap.Text.Utf8

/-!
# Properties of YAML nodes

The anchors, the tags and the directives of a text. A tag is given in full, or by a handle and what
comes after it; a directive says what a handle stands for.
-/

set_option autoImplicit false

namespace MonoTap.Document.Yaml

/-- Whether a character may stand in the name of an anchor or of a handle. -/
def isNameChar (c : Char) : Bool :=
  ('0' ≤ c && c ≤ '9') || ('A' ≤ c && c ≤ 'Z') || ('a' ≤ c && c ≤ 'z') || c == '-' || c == '_'

/-- A tag as it is written. Without a handle it is given in full. -/
structure Tag where
  handle : Option String
  suffix : String
  deriving DecidableEq, Repr

/-- A directive: the version of the language, what a handle stands for, or another one. -/
inductive Directive where
  | version (major : Nat)
  | handle (name stands : String)
  | other
  deriving DecidableEq, Repr

/-- The name after the sign of an anchor or an alias. -/
def readName (p : Place) : Except Fault (String × Place) :=
  let (name, p) := p.next.takeWhile isNameChar
  let ends := separates p.peek || p.peek.any ['?', ':', ',', ']', '\x7d', '%', '@', '\x60'].contains
  if !name.isEmpty && ends then .ok (String.ofList name, p) else .error .malformed

/-- Whether a character may stand in a tag. -/
def isTagChar (c : Char) : Bool :=
  isNameChar c || [';', '/', '?', ':', '@', '&', '=', '+', '$', ',', '.', '!', '~', '*', '\'', '(',
    ')', '[', ']', '%'].contains c

/-- The bytes that escapes of two hexadecimal digits each stand for, up to something else. -/
def escapedBytes : List Char → Except Fault (List UInt8)
  | '%' :: a :: b :: rest =>
    match hexValue? [a, b] with
    | some n => (escapedBytes rest).map (UInt8.ofNat n :: ·)
    | none => .error .malformed
  | '%' :: _ => .error .malformed
  | _ => .ok []

/-- The text of a tag, in which escaped bytes stand for characters. -/
def unescape : (fuel : Nat) → List Char → Except Fault (List Char)
  | 0, _ => .ok []
  | _, [] => .ok []
  | fuel + 1, c :: cs =>
    if c == '%' then do
      let bytes ← escapedBytes (c :: cs)
      match Text.decode bytes with
      | .ok text => return text.toList ++ (← unescape fuel ((c :: cs).drop (3 * bytes.length)))
      | .error _ => throw .malformed
    else (unescape fuel cs).map (c :: ·)

/-- The text of a tag or of a part of it. -/
def readTagText (p : Place) : Except Fault (String × Place) := do
  let (text, p) := p.takeWhile isTagChar
  if text.isEmpty then throw .malformed
  else return (String.ofList (← unescape text.length text), p)

/-- The handle of a tag: one sign, or a name between two. -/
def readHandle (p : Place) : Except Fault (String × Place) :=
  if p.peek == some '!' then
    if p.next.peek == some ' ' then .ok ("!", p.next)
    else
      let (name, p) := p.next.takeWhile isNameChar
      if p.peek == some '!' then .ok (String.ofList ('!' :: name ++ ['!']), p.next)
      else .error .malformed
  else .error .malformed

/-- A tag, from its sign on. -/
def readTag (p : Place) : Except Fault (Tag × Place) := do
  let inside := p.next
  let (tag, p) ←
    if inside.peek == some '<' then do
      let (text, p) ← readTagText inside.next
      if p.peek == some '>' then pure (⟨none, text⟩, p.next) else throw Fault.malformed
    else if separates inside.peek then pure ((⟨none, "!"⟩ : Tag), inside)
    else do
      let word := inside.rest.takeWhile fun c => !endsWord (some c)
      let (handle, p) ← if word.contains '!' then readHandle p else pure ("!", inside)
      let (text, p) ← readTagText p
      pure (⟨some handle, text⟩, p)
  if endsWord p.peek then return (tag, p) else throw .malformed

/-- A number of a version. -/
def readVersionNumber (p : Place) : Except Fault (Nat × Place) :=
  let (digits, p) := p.takeWhile Char.isDigit
  if digits.isEmpty then .error .malformed
  else .ok (digits.foldl (fun n c => 10 * n + (c.toNat - 48)) 0, p)

/-- The number of the version that a directive asks for. -/
def readVersion (p : Place) : Except Fault (Directive × Place) := do
  let (major, p) ← readVersionNumber p.skipSpaces
  if p.peek != some '.' then throw .malformed
  let (_, p) ← readVersionNumber p.next
  if endsWord p.peek then return (.version major, p) else throw .malformed

/-- What a directive says about a handle. -/
def readHandleDirective (p : Place) : Except Fault (Directive × Place) := do
  let (name, p) ← readHandle p.skipSpaces
  if p.peek != some ' ' then throw .malformed
  let (stands, p) ← readTagText p.skipSpaces
  if endsWord p.peek then return (.handle name stands, p) else throw .malformed

/-- A directive, from its sign on, with the rest of its line. -/
def readDirective (p : Place) : Except Fault (Directive × Place) := do
  let (name, p) := p.next.takeWhile isNameChar
  if name.isEmpty || !endsWord p.peek then throw .malformed
  let (directive, p) ←
    if name == "YAML".toList then readVersion p
    else if name == "TAG".toList then readHandleDirective p
    else pure (Directive.other, p.skipWhile (!isBreak ·))
  return (directive, ← skipComment p)

end MonoTap.Document.Yaml

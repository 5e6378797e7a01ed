import MonoTap.Document.Value
import MonoTap.Document.Yaml.Node
import MonoTap.Document.Yaml.Numeral
import MonoTap.Document.Yaml.Timestamp

/-!
# Types of YAML scalars

What a plain scalar is: nothing, a truth value, a number, a point in time, the key that merges maps,
or a text. With these types every node has a value, unless its tag and its text do not fit.
-/

set_option autoImplicit false

namespace MonoTap.Document.Yaml

/-- The type of a scalar. -/
inductive ScalarType where
  | null | bool | int | float | timestamp | merge | equals | text
  deriving DecidableEq, Repr

/-- The words for truth values. -/
def boolWords : List (String × Bool) :=
  [("yes", true), ("no", false), ("true", true), ("false", false), ("on", true), ("off", false)]

/-- The ways to write a word: in small letters, with a capital, or in capitals. -/
def spellings (word : String) : List String :=
  [word, word.capitalize, String.ofList (word.toList.map Char.toUpper)]

/-- The type of a plain scalar. -/
def plainType (text : List Char) : ScalarType :=
  let word := String.ofList text
  if word == "" || word == "~" || (spellings "null").contains word then .null
  else if boolWords.any fun (w, _) => (spellings w).contains word then .bool
  else if isFloat text then .float
  else if isInt text then .int
  else if word == "<<" then .merge
  else if (pointInTime? text).isSome then .timestamp
  else if word == "=" then .equals
  else .text

/-- The standard tags of scalars. -/
def tagged : List (String × ScalarType) :=
  [("null", .null), ("bool", .bool), ("int", .int), ("float", .float), ("timestamp", .timestamp),
    ("str", .text)]

/-- The type that a tag gives a scalar. -/
def taggedType? (tag : String) : Option ScalarType :=
  (tagged.find? fun (name, _) => Node.standardTag ++ name == tag).map Prod.snd

/-- The type of a scalar. -/
def scalarType? (tag : Option String) (plain : Bool) (text : String) : Option ScalarType :=
  match tag with
  | some tag => taggedType? tag
  | none => some (if plain then plainType text.toList else .text)

/-- The value of a scalar of a type. -/
def scalarValue (type : ScalarType) (text : String) : Except Fault Value :=
  match type with
  | .null => .ok .null
  | .bool =>
    let word := String.ofList (text.toList.map Char.toLower)
    match boolWords.find? (·.1 == word) with
    | some (_, b) => .ok (.bool b)
    | none => .error (.unknownWord word)
  | .int => (intOf text.toList).map .int
  | .float => (floatOf text.toList).map .float
  | .timestamp =>
    match pointInTime? text.toList with
    | some p => p.check.map fun _ => .timestamp text
    | none => .error .malformed
  | .text => .ok (.text text)
  | .merge | .equals => .error .malformed

/-! ### Values -/

/-- The type that a node has as a key of a map. -/
def Node.keyType? : Node → Option ScalarType
  | .scalar tag plain text => scalarType? tag plain text
  | _ => none

/-- Whether a value may be a key. -/
def isKey : Value → Bool
  | .list _ | .map _ => false
  | _ => true

/-- Whether a tag is the standard one with the given name, or none. -/
def isStandard (name : String) (tag : Option String) : Bool :=
  tag.all (· == Node.standardTag ++ name)

/-- The entry of a map as a pair. -/
def pairOf : Value → Except Fault Value
  | .map [(k, v)] => .ok (.list [k, v])
  | _ => .error .malformed

mutual

/-- The value of a node. -/
def Node.value : Node → Except Fault Value
  | .scalar tag plain text =>
    match scalarType? tag plain text with
    | some type => scalarValue type text
    | none => .error .malformed
  | .list tag items => do
    let values ← valuesOf items
    if isStandard "seq" tag then return .list values
    else if ["omap", "pairs"].any fun name => tag == some (Node.standardTag ++ name) then
      return .list (← values.mapM pairOf)
    else throw .malformed
  | .map tag entries => do
    let (merged, own) ← entriesOf entries
    if isStandard "map" tag then return .map (merged ++ own)
    else if tag == some (Node.standardTag ++ "set") then
      return .list ((merged ++ own).map Prod.fst)
    else throw .malformed

/-- The values of some nodes. -/
def valuesOf : List Node → Except Fault (List Value)
  | [] => .ok []
  | n :: ns => do
    let v ← n.value
    return v :: (← valuesOf ns)

/-- The entries that are merged into a map, and its own ones. -/
def entriesOf : List (Node × Node) → Except Fault (List (Value × Value) × List (Value × Value))
  | [] => .ok ([], [])
  | (k, v) :: rest => do
    if k.keyType? == some .merge then
      let more ← mergedOf v
      let (merged, own) ← entriesOf rest
      return (more ++ merged, own)
    else
      let key ← if k.keyType? == some .equals then pure (.text "=") else k.value
      if !isKey key then throw .malformed
      let value ← v.value
      let (merged, own) ← entriesOf rest
      return (merged, (key, value) :: own)

/-- The entries of a map that is merged into another one, or of several. Those of the first count
most and come last. -/
def mergedOf : Node → Except Fault (List (Value × Value))
  | .map _ entries => do
    let (merged, own) ← entriesOf entries
    return merged ++ own
  | .list _ items => mergedOfAll items
  | .scalar .. => .error .malformed

/-- The entries of maps that are merged into another one. -/
def mergedOfAll : List Node → Except Fault (List (Value × Value))
  | [] => .ok []
  | .map _ entries :: rest => do
    let (merged, own) ← entriesOf entries
    let more ← mergedOfAll rest
    return more ++ merged ++ own
  | _ :: _ => .error .malformed

end

/-- The value of a text. -/
def parse (text : String) : Except Fault Value := do
  let node ← Node.ofTokens (← tokens text.toList)
  node.value

end MonoTap.Document.Yaml

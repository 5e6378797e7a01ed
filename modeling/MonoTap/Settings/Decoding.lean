import MonoTap.Document.Problem
import MonoTap.Document.Value
import MonoTap.Settings.Basic
import MonoTap.Text.Identifier

/-!
# Decoding settings

The settings that a record of values gives. A field that is not given has its default, and unknown
fields do not count. A field of the wrong shape, or with a value that makes no sense, is a problem.
-/

set_option autoImplicit false

namespace MonoTap.Settings

open Callback (Bucket)
open Document (Checked Cause PathStep Value)

/-- The text that a value is. -/
def textOf (path : List PathStep) : Value → Checked String
  | .text s => .ok s
  | _ => Checked.problem path .notText

/-- The texts that a value lists. -/
def textsOf (path : List PathStep) : Value → Checked (List String)
  | .list items => Checked.all (fun i v => textOf (path ++ [.index i]) v) 0 items
  | _ => Checked.problem path .notList

/-- The words for yes. -/
def yesWords : List String := ["1", "on", "t", "true", "y", "yes"]

/-- The words for no. -/
def noWords : List String := ["0", "off", "f", "false", "n", "no"]

/-- The size from which on a whole number is too large to count as one. -/
def wholeLimit : Nat := Number.twoTo 63

/-- The number of units of a whole number that is small enough to count as one. -/
def wholeUnits? (x : Number.Binary64) : Option Int :=
  match x with
  | .finite .. =>
    let one := Number.Binary64.unit
    if x.magnitude % one == 0 && x.magnitude < wholeLimit * one then some x.units else none
  | _ => none

/-- The truth value that a value means: itself, a word in any case, or one of the numbers 0 and 1.
-/
def boolOf (path : List PathStep) : Value → Checked Bool
  | .bool b => .ok b
  | .text s =>
    let word := String.ofList (s.toList.map Char.toLower)
    if yesWords.contains word then .ok true
    else if noWords.contains word then .ok false
    else Checked.problem path .unknownBool
  | .int n =>
    if n == 1 then .ok true
    else if n == 0 then .ok false
    else if -(wholeLimit : Int) ≤ n && n < wholeLimit then Checked.problem path .unknownBool
    else Checked.problem path .notBool
  | .float x =>
    match wholeUnits? x with
    | some units =>
      if units == Number.Binary64.unit then .ok true
      else if units == 0 then .ok false
      else Checked.problem path .unknownBool
    | none => Checked.problem path .notBool
  | _ => Checked.problem path .notBool

/-- Requires more of a result. -/
def require {α β : Type} (path : List PathStep) (checked : Checked α)
    (accept : α → Except String β) : Checked β :=
  checked.bind fun a =>
    match accept a with
    | .ok b => .ok b
    | .error reason => Checked.problem path (.rejected reason)

/-- A letter as a capital. The dotless i counts as an i. -/
def capital (c : Char) : Char :=
  if c.toNat == 0x131 then 'I' else c.toUpper

/-- The log level with a name, in any case. -/
def acceptLogLevel (s : String) : Except String LogLevel :=
  match LogLevel.ofName? (String.ofList (s.toList.map capital)) with
  | some l => .ok l
  | none =>
    .error ("log_level must be one of ('DEBUG', 'INFO', 'WARNING', 'ERROR'), got " ++ Text.quoted s)

/-- An indentation of blanks. -/
def acceptIndent (s : String) : Except String String :=
  if !s.isEmpty && Text.allBlank s.toList then .ok s
  else .error "indent must be a non-empty run of spaces or tabs"

/-- The order in which the methods are named, each once. -/
def acceptMethodOrder (names : List String) : Except String (List Bucket) :=
  match (names.mapM Bucket.ofMethod?).filter (·.isPerm Bucket.all) with
  | some order => .ok order
  | none =>
    .error "listener_method_order must be a permutation of ['doOnNext', 'doOnError', 'doFinally']"

/-- The name of a parameter. -/
def acceptName (s : String) : Except String String :=
  if Text.isIdentifier s.toList then .ok s
  else .error ("termination_param_name is not a valid identifier: " ++ Text.quoted s)

/-- A field of a record, decoded, or its default if it is not given. -/
def field {α : Type} (entries : List (Value × Value)) (name : String) (standard : α)
    (decode : List PathStep → Value → Checked α) : Checked α :=
  match Value.entry? name entries with
  | some v => decode [.field name] v
  | none => .ok standard

/-- The settings that the entries of a record give. -/
def ofEntries (entries : List (Value × Value)) : Checked Settings :=
  let standard : Settings := {}
  let logLevel := field entries "log_level" standard.logLevel fun path v =>
    require path (textOf path v) acceptLogLevel
  let indent := field entries "indent" standard.indent fun path v =>
    require path (textOf path v) acceptIndent
  let methodOrder := field entries "listener_method_order" standard.methodOrder fun path v =>
    require path (textsOf path v) acceptMethodOrder
  let override := field entries "add_override_annotations" standard.override boolOf
  let terminationName := field entries "termination_param_name" standard.terminationName
    fun path v => require path (textOf path v) acceptName
  let extensions := field entries "file_extensions" standard.extensions textsOf
  let extraSkipped := field entries "extra_skip_directories" standard.extraSkipped textsOf
  let layout := Checked.app (Checked.app (logLevel.map Settings.mk) indent) methodOrder
  let named := Checked.app (Checked.app layout override) terminationName
  Checked.app (Checked.app named extensions) extraSkipped

/-- Without entries all settings are the defaults. -/
theorem ofEntries_nil : ofEntries [] = .ok {} := rfl

end MonoTap.Settings

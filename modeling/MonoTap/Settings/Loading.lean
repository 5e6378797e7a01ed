import MonoTap.Document.Yaml.Schema
import MonoTap.Files.Tree
import MonoTap.Settings.Decoding
import MonoTap.Text.Utf8

/-!
# Loading settings

Settings come from a file in YAML, over which some variables of the environment have precedence. The
file is the one asked for, or the one that a variable names. Without such a file all settings that
no variable gives are the defaults.
-/

set_option autoImplicit false

namespace MonoTap.Settings

open Document (Problem Value)
open Files (Entry)

/-- The variables of the environment with their values. -/
abbrev Environment := List (String × String)

/-- The value of a variable. -/
def Environment.get? (env : Environment) (name : String) : Option String :=
  (env.find? (·.1 == name)).map Prod.snd

/-- Why settings cannot be loaded. -/
inductive LoadFault where
  | undecodable (e : Text.DecodeError)
  | unreadable (f : Document.Yaml.Fault)
  | notRecord
  | invalid (problems : List Problem)
  deriving DecidableEq, Repr

/-- The variable that names the file with the settings. -/
def configVariable : String := "REACTORLOOM_CONFIG"

/-- The variables that have precedence, each with the setting that it gives. -/
def overrides : List (String × String) :=
  [("REACTORLOOM_LOG_LEVEL", "log_level"), ("REACTORLOOM_INDENT", "indent")]

/-- The file with the settings: the one asked for, or else the one that the environment names. -/
def configPath? (env : Environment) (asked : Option String) : Option String :=
  match asked with
  | some path => some path
  | none => (env.get? configVariable).filter (!·.isEmpty)

/-- A path without empty parts and parts that stay in a directory. -/
def plainPath (path : String) : String :=
  let parts := (Text.splitAt '/' path.toList).filter fun part => !part.isEmpty && part != ['.']
  let relative := Text.joinWith ['/'] parts
  String.ofList (if path.toList.head? == some '/' then '/' :: relative else relative)

/-- A text in which all lines end with a line feed. -/
def withLineFeeds : List Char → List Char
  | [] => []
  | '\r' :: '\n' :: cs => '\n' :: withLineFeeds cs
  | c :: cs => (if c == '\r' then '\n' else c) :: withLineFeeds cs

/-- A decoding error as it is reported: the position of a character cut off by the end of the file
counts from that character. -/
def reported (e : Text.DecodeError) : Text.DecodeError :=
  if e.cause == .unexpectedEnd then { e with position := 0 } else e

/-- The value of a file with settings. A vacant one counts as an empty record. -/
def readConfig (bytes : List UInt8) : Except LoadFault Value :=
  match Text.decode bytes with
  | .error e => .error (.undecodable (reported e))
  | .ok text =>
    match Document.Yaml.parse (String.ofList (withLineFeeds text.toList)) with
    | .error f => .error (.unreadable f)
    | .ok value => .ok (if value.isVacant then .map [] else value)

/-- The value that settings are decoded from. -/
def configValue (tree : Entry) (path : Option String) : Except LoadFault Value :=
  match path with
  | none => .ok (.map [])
  | some path =>
    match tree.read (plainPath path) with
    | .ok bytes => readConfig bytes
    | .error _ => .ok (.map [])

/-- The entries that the environment gives. -/
def overridden (env : Environment) : List (Value × Value) :=
  overrides.filterMap fun (name, field) =>
    (env.get? name).map fun value => (.text field, .text value)

/-- Whether a value is a text. -/
def isText : Value → Bool
  | .text _ => true
  | _ => false

/-- Loads the settings. -/
def load (tree : Entry) (env : Environment) (asked : Option String) : Except LoadFault Settings :=
  match configValue tree (configPath? env asked) with
  | .error fault => .error fault
  | .ok (.map entries) =>
    if entries.all fun (k, _) => isText k then
      match ofEntries (entries ++ overridden env) with
      | .ok settings => .ok settings
      | .error problems => .error (.invalid problems)
    else .error .notRecord
  | .ok _ => .error .notRecord

/-- Without a file and without variables all settings are the defaults. -/
theorem load_nil (tree : Entry) : load tree [] none = .ok {} := rfl

end MonoTap.Settings

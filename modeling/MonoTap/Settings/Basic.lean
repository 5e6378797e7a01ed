import MonoTap.Callback.Bucket

/-!
# Settings

What can be chosen about a migration, and the choices made by default.
-/

set_option autoImplicit false

namespace MonoTap

/-- How much is logged. -/
inductive LogLevel where
  | debug | info | warning | error
  deriving DecidableEq, Repr

namespace LogLevel

/-- The levels, from the most talkative one down. -/
def all : List LogLevel := [.debug, .info, .warning, .error]

/-- The name of a level. -/
def name : LogLevel → String
  | .debug => "DEBUG"
  | .info => "INFO"
  | .warning => "WARNING"
  | .error => "ERROR"

/-- The level with the given name. -/
def ofName? (name : String) : Option LogLevel :=
  all.find? (·.name == name)

theorem ofName?_name (l : LogLevel) : ofName? l.name = some l := by
  cases l <;> decide

end LogLevel

/-- The settings of a migration: the log level, one step of indentation in generated code, the order
of the methods of a listener, whether they are marked as overriding, the name of the parameter of
the last of them, the endings of the names of files to migrate, and the names of directories to skip
beyond the usual ones. -/
structure Settings where
  logLevel : LogLevel := .info
  indent : String := "    "
  methodOrder : List Callback.Bucket := [.error, .value, .termination]
  override : Bool := true
  terminationName : String := "terminationType"
  extensions : List String := [".java"]
  extraSkipped : List String := []
  deriving DecidableEq, Repr, Inhabited

end MonoTap

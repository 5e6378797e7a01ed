import MonoTap.Callback.Classification
import MonoTap.Receiver.ResolvedType

/-!
# Call sites

A call of `doAfterSuccessOrError` with a callback of two parameters, taken apart, and what is said
about it.
-/

set_option autoImplicit false

namespace MonoTap

/-- How grave a diagnostic is. -/
inductive Severity where
  | warning | error
  deriving DecidableEq, Repr

/-- The word for a severity. -/
def Severity.word : Severity → String
  | .warning => "warning"
  | .error => "error"

/-- A message about a line of a file. -/
structure Diagnostic where
  file : String
  line : Nat
  message : String
  severity : Severity
  deriving DecidableEq, Repr

/-- A call to be converted. The bytes from `start` up to `stop`, from the name of the method to the
closing parenthesis, are what a conversion replaces. -/
structure CallSite where
  file : String
  line : Nat
  receiver : String
  parameters : Callback.Parameters
  receiverType : Option Receiver.ResolvedType
  arena : Callback.Arena
  body : List Int
  start : Nat
  stop : Nat
  indentText : String
  reservedNames : List String
  newline : String
  deriving Repr

end MonoTap

import MonoTap.Imports.Table

/-!
# Resolved types

The type of an expression as far as the text shows it: a name and its arguments.
-/

set_option autoImplicit false

namespace MonoTap.Receiver

/-- A type by its name and its arguments. An argument is missing if it names no concrete type. -/
structure ResolvedType where
  name : String
  arguments : List (Option String)
  deriving DecidableEq, Repr

/-- All texts of a list, if none is missing. -/
def allPresent : List (Option String) → Option (List String)
  | [] => some []
  | none :: _ => none
  | some a :: rest => (allPresent rest).map (a :: ·)

namespace ResolvedType

/-- The name without its package. -/
def simpleName (t : ResolvedType) : String :=
  String.ofList (Imports.simpleNameOf t.name.toList)

/-- Whether the name has a dot. -/
def isQualified (t : ResolvedType) : Bool :=
  t.name.toList.contains '.'

/-- The type as Java writes it, if all its arguments are concrete. -/
def text? (t : ResolvedType) : Option String :=
  if t.arguments.isEmpty then some t.name
  else (allPresent t.arguments).map fun args => t.name ++ "<" ++ ", ".intercalate args ++ ">"

end ResolvedType

/-- The qualified name of the type whose calls are migrated. -/
def monoName : String := "reactor.core.publisher.Mono"

/-- The name of that type without its package. -/
def monoSimpleName : String := "Mono"

/-- Whether a type is that type, given whether its simple name is known in the unit. -/
def isMono (t : ResolvedType) (monoImported : Bool) : Bool :=
  t.name == monoName || (t.name == monoSimpleName && monoImported)

end MonoTap.Receiver

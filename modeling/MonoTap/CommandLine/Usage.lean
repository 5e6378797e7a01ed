import MonoTap.CommandLine.Arguments

/-!
# Usage

The short description of a command and its arguments, which goes before the reason for a refusal and
is the answer to a request for help.
-/

set_option autoImplicit false

namespace MonoTap.CommandLine

/-- The name of the value of an option: its spelling in capitals, or its choices. -/
def Flag.valueName (f : Flag) : String :=
  match f.kind with
  | .oneOf choices => "\x7b" ++ ",".intercalate choices ++ "\x7d"
  | _ =>
    let name := (f.names.getLastD "").toList.dropWhile (· == '-')
    String.ofList (name.map fun c => if c == '-' then '_' else c.toUpper)

/-- An option as the usage shows it. -/
def Flag.usage (f : Flag) : String :=
  let name := f.names.headD ""
  "[" ++ (if f.kind.takesValue then name ++ " " ++ f.valueName else name) ++ "]"

/-- An operand as the usage shows it. -/
def Operand.usage : Operand → String
  | .argument name => name
  | .choice _ choices => "\x7b" ++ ",".intercalate choices ++ "\x7d ..."

/-- The usage of a command. -/
def Grammar.usage (g : Grammar) : String :=
  " ".intercalate ("usage:" :: g.program :: g.flags.map Flag.usage ++
    (g.operand.map Operand.usage).toList) ++ "\n"

/-- What is said about a refusal. -/
def Refusal.text (r : Refusal) : String :=
  match r.stop with
  | .help => r.grammar.usage
  | .refused fault => r.grammar.usage ++ r.grammar.program ++ ": error: " ++ fault.message ++ "\n"

end MonoTap.CommandLine

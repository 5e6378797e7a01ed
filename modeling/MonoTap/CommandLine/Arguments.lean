import MonoTap.CommandLine.Grammar
import MonoTap.Settings.Basic

/-!
# Arguments

What the program can be asked for, and how its arguments say it.
-/

set_option autoImplicit false

namespace MonoTap.CommandLine

/-- What to migrate and how: the file or the directory, whether changed files are written back,
whether diffs are shown, and whether a change is a failure. -/
structure MigrateOptions where
  path : String
  write : Bool
  diff : Bool
  check : Bool
  deriving DecidableEq, Repr

/-- What is asked for. -/
inductive Command where
  | migrate (options : MigrateOptions)
  | lanes
  | serve (host : String) (socket : Int)
  deriving DecidableEq, Repr

/-- What is asked for, and the choices that hold for every command. -/
structure Arguments where
  logLevel : Option LogLevel
  config : Option String
  command : Command
  deriving DecidableEq, Repr

/-- The request for help. -/
def helpFlag : Flag := ⟨["-h", "--help"], .help⟩

/-- The name of the program. -/
def programName : String := "reactorloom"

/-- The commands by name. -/
def commandNames : List String := ["migrate", "lanes", "serve"]

/-- The arguments before and with the command. -/
def mainGrammar : Grammar :=
  { program := programName
    flags := [helpFlag, ⟨["--log-level"], .oneOf (LogLevel.all.map LogLevel.name)⟩,
      ⟨["--config"], .anyText⟩]
    operand := some (.choice "command" commandNames) }

/-- The arguments of `migrate`. -/
def migrateGrammar : Grammar :=
  { program := programName ++ " migrate"
    flags := [helpFlag, ⟨["--write"], .mark⟩, ⟨["--diff"], .mark⟩, ⟨["--check"], .mark⟩]
    operand := some (.argument "path") }

/-- The arguments of `lanes`. -/
def lanesGrammar : Grammar :=
  { program := programName ++ " lanes", flags := [helpFlag], operand := none }

/-- The arguments of `serve`. -/
def serveGrammar : Grammar :=
  { program := programName ++ " serve"
    flags := [helpFlag, ⟨["--host"], .anyText⟩, ⟨["--port"], .wholeNumber⟩]
    operand := none }

/-- Why there is nothing to do, and the command that says so. -/
structure Refusal where
  grammar : Grammar
  stop : Stop
  deriving DecidableEq, Repr

/-- Reads arguments by a grammar. -/
def readBy (g : Grammar) (arguments : List String) : Except Refusal Reading :=
  match g.read arguments with
  | .ok r => .ok r
  | .error stop => .error ⟨g, stop⟩

/-- The command with a name, and what its arguments leave over. -/
def commandOf (name : String) (arguments : List String) : Except Refusal (Command × List String) :=
  if name == "migrate" then do
    let r ← readBy migrateGrammar arguments
    let path := (r.operand.map Prod.fst).getD ""
    return (.migrate ⟨path, r.has "--write", r.has "--diff", r.has "--check"⟩, r.extras)
  else if name == "lanes" then do
    let r ← readBy lanesGrammar arguments
    return (.lanes, r.extras)
  else do
    let r ← readBy serveGrammar arguments
    let socket := (r.value? "--port").bind fun text => Number.integer? text.toList
    return (.serve ((r.value? "--host").getD "127.0.0.1") (socket.getD 9005), r.extras)

/-- What some arguments ask for. Nothing may be left over. -/
def Arguments.ofList (arguments : List String) : Except Refusal Arguments := do
  let r ← readBy mainGrammar arguments
  let (name, others) := r.operand.getD ("", [])
  let (command, extras) ← commandOf name others
  let extras := r.extras ++ extras
  if extras.isEmpty then
    return {
      logLevel := (r.value? "--log-level").bind LogLevel.ofName?
      config := (r.value? "--config").filter (!·.isEmpty)
      command }
  else throw ⟨mainGrammar, .refused (.unrecognized extras)⟩

end MonoTap.CommandLine

import MonoTap.CommandLine.Run

/-!
# The program

Reads the files that the arguments name from below the current directory, runs the command over
them, prints what it puts out, and writes the files that it has changed.
-/

set_option autoImplicit false

open MonoTap
open MonoTap.Files (Entry)

namespace MonoTap

/-- The entry at a path of the file system. Nothing stands for what cannot be read. -/
partial def readEntry (path : String) : IO (Option Entry) := do
  let place := (← IO.currentDir) / path
  if ← place.isDir then
    let names := (← place.readDir).toList.map fun e => e.fileName
    let entries ← names.filterMapM fun name => do
      return (← readEntry (path ++ "/" ++ name)).map fun e => (name, e)
    return some (.directory entries)
  else if ← place.pathExists then
    return some (.file (← IO.FS.readBinFile place).toList)
  else return none

/-- The name below the current directory that a path begins with, or the directory itself. -/
def firstName (path : String) : String :=
  match Files.parts path.toList with
  | name :: _ => if name == ['.', '.'] then "." else String.ofList name
  | [] => "."

/-- The paths that arguments name. -/
def namedPaths (env : Settings.Environment) (arguments : List String) : List String :=
  match CommandLine.Arguments.ofList arguments with
  | .error _ => []
  | .ok asked =>
    (Settings.configPath? env asked.config).toList ++
      match asked.command with
      | .migrate options => [options.path]
      | _ => []

/-- The tree of the files that some paths lead to. -/
def readTree (paths : List String) : IO Entry := do
  let names := (paths.map firstName).eraseDups
  if names.contains "." then return (← readEntry ".").getD (.directory [])
  else
    let entries ← names.filterMapM fun name => do
      return (← readEntry name).map fun e => (name, e)
    return .directory entries

/-- The variables of the environment that count. -/
def readEnvironment : IO Settings.Environment :=
  (Settings.configVariable :: Settings.overrides.map Prod.fst).filterMapM fun name => do
    return (← IO.getEnv name).map fun value => (name, value)

/-- Writes the files that are not the same in both trees. -/
def writeChanges (before after : Entry) : IO Unit :=
  (Entry.changedFiles before after).forM fun (path, bytes) => do
    IO.FS.writeBinFile ((← IO.currentDir) / path) (ByteArray.mk bytes.toArray)

end MonoTap

/-- Runs the program. -/
def main (arguments : List String) : IO UInt32 := do
  let env ← readEnvironment
  let tree ← readTree (namedPaths env arguments)
  let (result, after) := (CommandLine.run .builtIn env arguments).run tree
  writeChanges tree after
  match result with
  | .ok output =>
    IO.print output.out
    IO.eprint output.err
    return UInt32.ofNat output.status
  | .error failure =>
    IO.eprintln (CommandLine.programName ++ ": " ++ failure.message)
    return 1

import MonoTap.Files.SourceFile
import MonoTap.Files.Tree
import MonoTap.Lane.Registry
import MonoTap.Migration.Report

/-!
# The engine

Applies a lane to texts, to files and to all source files below a directory. A file that cannot be
read is reported and stays as it is. What has been written stays written when a later file fails.
-/

set_option autoImplicit false

namespace MonoTap

open Files (Entry)
open Lane (ScoreFault)

/-- A lane and the settings that it is applied with. -/
structure Engine where
  lane : Lane
  settings : Settings

/-- The lane that an engine has if no other is asked for does not exist. -/
structure MissingLane where
  id : String
  deriving DecidableEq, Repr

/-- The wording of the error. -/
def MissingLane.message (m : MissingLane) : String :=
  "Migration lane not registered: " ++ m.id

/-- The engine with the lane that is used if no other is asked for. -/
def Engine.standard (registry : Lane.Registry) (settings : Settings) : Except MissingLane Engine :=
  match registry.get? Lane.tap.id with
  | some lane => .ok ⟨lane, settings⟩
  | none => .error ⟨Lane.tap.id⟩

/-- Why a run breaks off. -/
inductive EngineFailure where
  | conversion (f : ConversionFailure)
  | score (f : ScoreFault)
  | unwritable (path : String) (f : Files.PathFault)
  deriving DecidableEq, Repr

/-- A run over a tree of files, which it may change. -/
abbrev TreeRun (α : Type) := ExceptT EngineFailure (StateM Entry) α

/-- The file as it was found, which could not be read. -/
def unreadable (file reason : String) : FileMigration :=
  { file
    result := {
      file
      before := ""
      text := ""
      outcomes := []
      diagnostics := [⟨file, 0, "cannot read file: " ++ reason, .error⟩] }
    written := false }

/-- The text of a file, or why it cannot be read. -/
def readText (tree : Entry) (path : String) : Except String String :=
  match tree.read path with
  | .error fault => .error (fault.message path)
  | .ok bytes =>
    match Text.decode bytes with
    | .error fault => .error fault.message
    | .ok text => .ok text

namespace Engine

/-- Migrates a text. -/
def migrateText (e : Engine) (file text : String) : Except EngineFailure FileMigration :=
  match convert e.settings file text with
  | .ok result => .ok { file, result, written := false }
  | .error failure => .error (.conversion failure)

/-- The name under which a file is reported: the one asked for, unless it is empty, or its path. -/
def shownName (path : String) (display : Option String) : String :=
  match display with
  | some name => if name.isEmpty then path else name
  | none => path

/-- Migrates a file, and writes it back if asked to and if it changed. -/
def migrateFile (e : Engine) (path : String) (write : Bool) (display : Option String) :
    TreeRun FileMigration := do
  let file := shownName path display
  match readText (← get) path with
  | .error reason => return unreadable file reason
  | .ok text =>
    let migration ← ExceptT.mk (pure (e.migrateText file text))
    if write && migration.changed then
      match (← get).write path (Text.encode migration.result.text) with
      | .ok tree =>
        set tree
        return { migration with written := true }
      | .error fault => throw (.unwritable path fault)
    else return migration

/-- Whether a file of the given name is a source file. -/
def accepts (e : Engine) (name : String) : Bool :=
  let lowered := Text.lower name.toList
  e.settings.extensions.any fun x => Text.endsIn lowered (Text.lower x.toList)

/-- Whether a directory of the given name is left out. -/
def skips (e : Engine) (name : String) : Bool :=
  Files.isSkipped e.settings.extraSkipped name

/-- The paths of the source files that a path stands for: itself if it is a file, and all below it
if it is a directory. -/
def sourceFiles (e : Engine) (tree : Entry) (root : String) : List String :=
  match tree.locate root with
  | .error _ => []
  | .ok place =>
    match place.entry with
    | .file _ => [root]
    | .directory entries => Entry.search e.accepts e.skips root.toList (.directory entries)

/-- A path as seen from the directory that the path `root` stands for, or holds it. -/
def relativePath (tree : Entry) (root path : String) : String :=
  let base := if tree.isDirectoryAt root then root.toList else Files.directory root.toList
  String.ofList (Files.relativeTo (Files.parts base) (Files.parts path.toList))

/-- Migrates all source files that a path stands for. -/
def migrateTree (e : Engine) (root : String) (write : Bool) : TreeRun Report := do
  let tree ← get
  let files ← (e.sourceFiles tree root).mapM fun path =>
    e.migrateFile path write (some (relativePath tree root path))
  match e.lane.report files with
  | .ok report => return report
  | .error fault => throw (.score fault)

end Engine

end MonoTap

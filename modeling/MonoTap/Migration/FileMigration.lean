import MonoTap.CallSite.Conversion
import MonoTap.Diff.Unified

/-!
# Migrated files

What came of one file: its text before and after, and whether it was written back.
-/

set_option autoImplicit false

namespace MonoTap

/-- What came of a file. -/
structure FileMigration where
  file : String
  result : Conversion
  written : Bool

namespace FileMigration

/-- Whether the text of the file is another one now. -/
def changed (m : FileMigration) : Bool := m.result.changed

/-- What is said about the file. -/
def diagnostics (m : FileMigration) : List Diagnostic := m.result.allDiagnostics

/-- The diff of the change, with `n` lines around each part of it; empty without a change. -/
def diff (m : FileMigration) (n : Nat) : String :=
  if m.changed then Diff.unified m.file n m.result.before m.result.text else ""

/-- The qualified name of the smallest method or constructor around a line. -/
def enclosingMethod? (m : FileMigration) (line : Nat) : Option String :=
  let u := Java.CompilationUnit.ofString m.result.before
  (Java.innermost? u.units line).map Java.CodeUnit.qualifiedName

end FileMigration

/-- The number of lines around a change that a diff shows if nothing else is said. -/
def standardContext : Nat := 3

end MonoTap

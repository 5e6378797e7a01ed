import MonoTap.Files.Path

/-!
# Source files

Which files hold source text and which directories are not searched for them.
-/

set_option autoImplicit false

namespace MonoTap.Files

/-- The languages whose sources are understood. -/
inductive Language where
  | java
  deriving DecidableEq, Repr

/-- The name of a language. -/
def Language.name : Language → String
  | .java => "java"

/-- The language with the given name. -/
def Language.ofName? (name : String) : Option Language :=
  if name == Language.java.name then some .java else none

/-- The language of a file, judged by its extension in any letter case. -/
def Language.ofPath? (path : String) : Option Language :=
  if Text.lower (extension path.toList) == ".java".toList then some .java else none

/-- Why a source cannot be read. -/
inductive LanguageError where
  /-- No language has this name. -/
  | unknownLanguage (name : String)
  /-- The path does not tell a language. -/
  | unknownFile (path : String)
  deriving DecidableEq, Repr

/-- The wording of an error. -/
def LanguageError.message : LanguageError → String
  | .unknownLanguage name => s!"Unsupported language: {name}. Supported: ['java']"
  | .unknownFile path => s!"Unsupported source file: {path}"

/-- The language with the given name. -/
def Language.ofName (name : String) : Except LanguageError Language :=
  match ofName? name with
  | some language => .ok language
  | none => .error (.unknownLanguage name)

/-- The language of a source: the one asked for, or else the one its path tells. -/
def Language.resolve (name : Option String) (path : String) : Except LanguageError Language :=
  match name with
  | some name => ofName name
  | none =>
    match ofPath? path with
    | some language => .ok language
    | none => .error (.unknownFile path)

/-- The directories that hold no sources of a project. -/
def skippedDirectories : List String :=
  [".git", ".gradle", ".idea", ".mvn", "build", "target", "out", "bin", "node_modules"]

/-- Whether a directory is left out of a search, given further names to leave out. -/
def isSkipped (extra : List String) (name : String) : Bool :=
  skippedDirectories.contains name || extra.contains name || name.toList.head? == some '.'

end MonoTap.Files

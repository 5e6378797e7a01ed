import MonoTap.Imports.Table
import MonoTap.Text.Edit
import MonoTap.Text.Source

/-!
# Registered imports

The imports that a compilation unit needs beyond its own, and the edits that declare them. If the
unit's imports are sorted each new one goes to its place among them; otherwise the new ones follow
the last import, or the package, or open the text.
-/

set_option autoImplicit false

namespace MonoTap.Imports

open Java (ImportDeclaration)
open Text (Edit Source)

/-- The qualified names to import, in the order in which they were first asked for. -/
structure Registration where
  table : Table
  pending : List String

namespace Registration

/-- Nothing is to be imported. -/
def start (table : Table) : Registration := ⟨table, []⟩

/-- Whether asking for a name changes nothing. -/
def knows (r : Registration) (name : String) : Bool :=
  r.table.covers name || r.pending.contains name

/-- Asks for a name. -/
def ensure (r : Registration) (name : String) : Registration :=
  if r.knows name then r else { r with pending := r.pending ++ [name] }

/-- Asks for several names in order. -/
def ensureAll (r : Registration) (names : List String) : Registration :=
  names.foldl ensure r

/-- A name that has been asked for is known. -/
theorem knows_ensure (r : Registration) (name : String) : (r.ensure name).knows name = true := by
  unfold ensure
  split
  · assumption
  · simp [knows]

theorem ensure_ensure (r : Registration) (name : String) :
    (r.ensure name).ensure name = r.ensure name := by
  rw [ensure, if_pos (knows_ensure r name)]

theorem ensureAll_append (r : Registration) (names more : List String) :
    r.ensureAll (names ++ more) = (r.ensureAll names).ensureAll more := by
  simp [ensureAll]

end Registration

/-- Texts in the order of their code points. -/
def sortNames (names : List String) : List String :=
  names.mergeSort fun a b => decide (a ≤ b)

/-- The declaration of an import. -/
def declarationOf (name : String) : String :=
  "import " ++ name ++ ";"

/-- An edit that only inserts. -/
def insertion (offset : Nat) (text : String) : Edit :=
  ⟨offset, offset, text⟩

/-- The insertion of a name among sorted imports: on a line of its own before the first import that
comes later in the order, and else after the last one. -/
def sortedInsertion (source : Source) (newline : String) (imports : List ImportDeclaration)
    (last : ImportDeclaration) (name : String) : Edit :=
  match imports.find? fun d => decide (name < d.name) with
  | some next => insertion (source.lineStart next.start) (declarationOf name ++ newline)
  | none => insertion last.stop (newline ++ declarationOf name)

/-- The insertion of several names where no import is declared. -/
def openingInsertion (newline : String) (packageEnd : Option Nat) (names : List String) : Edit :=
  let block := newline.intercalate (names.map declarationOf)
  match packageEnd with
  | some stop => insertion stop (newline ++ newline ++ block)
  | none => insertion 0 (block ++ newline ++ newline)

/-- The edits that declare the names asked for. -/
def Registration.edits (r : Registration) (source : Source) : List Edit :=
  if r.pending.isEmpty then []
  else
    let names := sortNames r.pending
    let newline := Text.newlineOf source.toBytes
    match r.table.imports.getLast? with
    | none => [openingInsertion newline (r.table.package.map (·.stop)) names]
    | some last =>
      let regular := r.table.imports.filter (!·.isStatic)
      match regular.getLast? with
      | some lastRegular =>
        if regular.map (·.name) == sortNames (regular.map (·.name)) then
          names.map (sortedInsertion source newline regular lastRegular)
        else [insertion last.stop (String.join (names.map (newline ++ declarationOf ·)))]
      | none => [insertion last.stop (String.join (names.map (newline ++ declarationOf ·)))]

end MonoTap.Imports

import MonoTap.Java.CompilationUnit

/-!
# Import tables

The package and the imports of a compilation unit, and which names can be written there without
their package.
-/

set_option autoImplicit false

namespace MonoTap.Imports

open Java (ImportDeclaration PackageDeclaration CompilationUnit)

/-- The package and the imports of a compilation unit. -/
structure Table where
  imports : List ImportDeclaration
  package : Option PackageDeclaration

/-- The table of a compilation unit. -/
def Table.ofUnit (u : CompilationUnit) : Table :=
  ⟨u.imports, u.package⟩

/-- The part of a qualified name before its last dot; empty if it has no dot. -/
def qualifierOf (name : List Char) : List Char :=
  ((name.reverse.dropWhile (· != '.')).drop 1).reverse

/-- The part of a qualified name after its last dot. -/
def simpleNameOf (name : List Char) : List Char :=
  (name.reverse.takeWhile (· != '.')).reverse

/-- Whether an import makes the name `name` of the package `package` known. -/
def importCovers (package name : String) (d : ImportDeclaration) : Bool :=
  !d.isStatic && d.name == if d.isWildcard then package else name

namespace Table

/-- The name of the package, empty for the unnamed one. -/
def packageName (t : Table) : String :=
  (t.package.map PackageDeclaration.name).getD ""

/-- Whether a qualified name can be written without its package: it is of the unit's own package or
of `java.lang`, or an import names it or its package. -/
def covers (t : Table) (name : String) : Bool :=
  let package := String.ofList (qualifierOf name.toList)
  package == t.packageName || package == "java.lang" || t.imports.any (importCovers package name)

end Table

/-- The two parts of a name with a dot make it up. -/
theorem qualifierOf_append_simpleNameOf {name : List Char} (h : '.' ∈ name) :
    qualifierOf name ++ '.' :: simpleNameOf name = name := by
  have split := List.takeWhile_append_dropWhile (p := (· != '.')) (l := name.reverse)
  obtain ⟨c, rest, hd⟩ : ∃ c rest, name.reverse.dropWhile (· != '.') = c :: rest := by
    cases hd : name.reverse.dropWhile (· != '.') with
    | nil =>
      have all := List.all_takeWhile (p := (· != '.')) (l := name.reverse)
      rw [hd, List.append_nil] at split
      rw [split] at all
      have := List.all_eq_true.1 all '.' (by simpa using h)
      simp at this
    | cons c rest => exact ⟨c, rest, rfl⟩
  have dot : c = '.' := by
    have := List.head?_dropWhile_not (· != '.') name.reverse
    rw [hd] at this
    simpa using this
  subst dot
  simp only [qualifierOf, simpleNameOf, hd, List.drop_succ_cons, List.drop_zero]
  rw [hd] at split
  have := congrArg List.reverse split
  simpa using this

end MonoTap.Imports

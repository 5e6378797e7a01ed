import Mathlib.Data.List.TakeWhile
import Mathlib.Tactic.Tauto
import MonoTap.Proofs.Insertions

/-!
# Simple names

What a simple name denotes in a compilation unit by the rules of the language. A type that is imported by
name hides every other type of that name, and a type of the unit's own package hides the types of packages
that are imported as a whole. What a covered name denotes is what covers it, unless a type of the same
simple name is imported from elsewhere: an import by name is not looked for when a package covers the name.
-/

set_option autoImplicit false

namespace MonoTap.Imports

open Java (ImportDeclaration qualify)

/-! ### The rules for simple names -/

/-- The qualified names that are imported one by one and have the given simple name. -/
def Table.imported (t : Table) (simple : String) : List String :=
  (t.imports.filter fun d =>
    !d.isStatic && !d.isWildcard && simpleNameOf d.name.toList == simple.toList).map (·.name)

/-- The packages that are imported as a whole. -/
def Table.onDemand (t : Table) : List String :=
  "java.lang" :: (t.imports.filter fun d => !d.isStatic && d.isWildcard).map (·.name)

/-- What a simple name denotes, where `exist` says which types there are. A name that is imported twice
for different types denotes none of them, and neither does one that two packages offer. -/
inductive Table.Denotes (t : Table) (exist : String → Prop) (simple : String) : String → Prop
  | imported {name : String} (isImported : name ∈ t.imported simple)
    (alone : ∀ other ∈ t.imported simple, other = name) (there : exist name) :
    t.Denotes exist simple name
  | own (free : t.imported simple = []) (there : exist (qualify t.packageName simple)) :
    t.Denotes exist simple (qualify t.packageName simple)
  | onDemand {package : String} (free : t.imported simple = [])
    (notOwn : ¬ exist (qualify t.packageName simple)) (isImported : package ∈ t.onDemand)
    (there : exist (qualify package simple))
    (alone : ∀ other ∈ t.onDemand, exist (qualify other simple) →
      qualify other simple = qualify package simple) :
    t.Denotes exist simple (qualify package simple)

/-- A simple name denotes one type at most. -/
theorem Table.Denotes.unique {t : Table} {exist : String → Prop} {simple a b : String}
    (first : t.Denotes exist simple a) (second : t.Denotes exist simple b) : a = b := by
  cases first with
  | imported mem alone =>
    cases second with
    | imported mem' => exact (alone b mem').symm
    | own free => rw [free] at mem; cases mem
    | onDemand free => rw [free] at mem; cases mem
  | own free there =>
    cases second with
    | imported mem' => rw [free] at mem'; cases mem'
    | own => rfl
    | onDemand _ notOwn => exact (notOwn there).elim
  | onDemand free notOwn _ there =>
    cases second with
    | imported mem' => rw [free] at mem'; cases mem'
    | own _ there' => exact (notOwn there').elim
    | onDemand _ _ mem' _ alone' => exact alone' _ ‹_› there

/-- Whether the package and the imports let a simple name denote a type, if the right types exist. -/
def Table.MayDenote (t : Table) (simple name : String) : Prop :=
  ∃ exist, t.Denotes exist simple name

/-! ### Parts of names -/

theorem takeWhile_ne_of_notMem {a : Char} {cs : List Char} (h : a ∉ cs) (rest : List Char) :
    (cs ++ a :: rest).takeWhile (· != a) = cs ∧ (cs ++ a :: rest).dropWhile (· != a) = a :: rest := by
  have all : ∀ c ∈ cs, (c != a) = true := fun c hc => bne_iff_ne.2 fun same => h (same ▸ hc)
  constructor
  · rw [List.takeWhile_append_of_pos all, List.takeWhile_cons_of_neg (by simp), List.append_nil]
  · rw [List.dropWhile_append_of_pos all, List.dropWhile_cons_of_neg (by simp)]

section

variable {package simple : String} (plain : '.' ∉ simple.toList)
include plain

/-- A qualified name has the parts that it is put together from. -/
theorem parts_qualify :
    qualifierOf (qualify package simple).toList = package.toList ∧
      simpleNameOf (qualify package simple).toList = simple.toList := by
  have undotted : '.' ∉ simple.toList.reverse := fun h => plain (List.mem_reverse.1 h)
  rw [qualify]
  split
  · rename_i empty
    have none : package.toList = [] := by
      rw [String.toList_eq_nil_iff]
      exact String.isEmpty_iff.1 empty
    have all : ∀ c ∈ simple.toList.reverse, (c != '.') = true := fun c hc =>
      bne_iff_ne.2 fun same => undotted (same ▸ hc)
    rw [qualifierOf, simpleNameOf, none, List.dropWhile_eq_nil_iff.2 all, List.takeWhile_eq_self_iff.2 all]
    simp
  · have whole : (package ++ "." ++ simple).toList.reverse =
        simple.toList.reverse ++ '.' :: package.toList.reverse := by
      simp
    obtain ⟨taken, dropped⟩ := takeWhile_ne_of_notMem undotted package.toList.reverse
    rw [qualifierOf, simpleNameOf, whole, taken, dropped]
    simp

theorem qualifier_qualify :
    String.ofList (qualifierOf (qualify package simple).toList) = package := by
  rw [(parts_qualify plain).1, String.ofList_toList]

/-- A name is covered if its package is the unit's own or is imported as a whole, or if it is imported
itself. -/
theorem Table.covers_iff (t : Table) :
    t.covers (qualify package simple) = true ↔
      package = t.packageName ∨ package ∈ t.onDemand ∨ qualify package simple ∈ t.imported simple := by
  have each : t.imports.any (importCovers package (qualify package simple)) = true ↔
      package ∈ (t.imports.filter fun d => !d.isStatic && d.isWildcard).map (·.name) ∨
        qualify package simple ∈ t.imported simple := by
    simp only [List.any_eq_true, imported, List.mem_map, List.mem_filter]
    constructor
    · rintro ⟨d, hd, covers⟩
      rw [importCovers, Bool.and_eq_true, beq_iff_eq] at covers
      cases wildcard : d.isWildcard with
      | true =>
        rw [wildcard, if_pos rfl] at covers
        exact .inl ⟨d, ⟨hd, by rw [covers.1, wildcard]; rfl⟩, covers.2⟩
      | false =>
        rw [wildcard, if_neg Bool.false_ne_true] at covers
        refine .inr ⟨d, ⟨hd, ?_⟩, covers.2⟩
        rw [covers.1, wildcard, covers.2, (parts_qualify plain).2, beq_self_eq_true]
        rfl
    · rintro (⟨d, ⟨hd, kind⟩, rfl⟩ | ⟨d, ⟨hd, kind⟩, same⟩)
      · rw [Bool.and_eq_true] at kind
        exact ⟨d, hd, by simp [importCovers, kind.1, kind.2]⟩
      · rw [Bool.and_eq_true, Bool.and_eq_true, Bool.not_eq_true', Bool.not_eq_true'] at kind
        exact ⟨d, hd, by simp [importCovers, kind.1, same]⟩
  rw [Table.covers, qualifier_qualify plain, onDemand, List.mem_cons, Bool.or_eq_true, Bool.or_eq_true,
    beq_iff_eq, beq_iff_eq, each]
  tauto

/-- A covered name denotes its type, if none of the same simple name is imported from elsewhere and none
exists in the packages in view. -/
theorem Table.denotes_of_covers {t : Table} (covered : t.covers (qualify package simple) = true)
    (free : ∀ other ∈ t.imported simple, other = qualify package simple) {exist : String → Prop}
    (there : exist (qualify package simple))
    (alone : ∀ other ∈ t.packageName :: t.onDemand, exist (qualify other simple) →
      qualify other simple = qualify package simple) :
    t.Denotes exist simple (qualify package simple) := by
  by_cases byName : qualify package simple ∈ t.imported simple
  · exact .imported byName free there
  · have none : t.imported simple = [] := by
      apply List.eq_nil_iff_forall_not_mem.2
      intro other mem
      exact byName (free other mem ▸ mem)
    by_cases own : exist (qualify t.packageName simple)
    · rw [← alone _ List.mem_cons_self own]
      exact .own none own
    · rcases (covers_iff plain t).1 covered with rfl | mem | mem
      · exact (own there).elim
      · exact .onDemand none own mem there fun other hother => alone other (List.mem_cons_of_mem _ hother)
      · exact (byName mem).elim

/-- The declarations let a simple name denote the types that are covered, unless one of the same simple
name is imported from elsewhere. -/
theorem Table.mayDenote_iff (t : Table) :
    t.MayDenote simple (qualify package simple) ↔ t.covers (qualify package simple) = true ∧
      ∀ other ∈ t.imported simple, other = qualify package simple := by
  constructor
  · rintro ⟨exist, denotes⟩
    rw [covers_iff plain]
    generalize name : qualify package simple = q at denotes
    have sameParts {p : String} (same : qualify p simple = q) : p = package := by
      rw [← @qualifier_qualify p simple plain, same, ← name, qualifier_qualify plain]
    cases denotes with
    | imported mem alone => exact ⟨.inr (.inr mem), alone⟩
    | own free => exact ⟨.inl (sameParts rfl).symm, fun other mem => by rw [free] at mem; cases mem⟩
    | onDemand free _ mem =>
      exact ⟨.inr (.inl (sameParts rfl ▸ mem)), fun other mem => by rw [free] at mem; cases mem⟩
  · rintro ⟨covered, free⟩
    exact ⟨(· = qualify package simple), denotes_of_covers plain covered free rfl fun _ _ same => same⟩

end

/-- What is known stays known, and what is asked for becomes known. -/
theorem Registration.knows_ensureAll {r : Registration} {names : List String} {name : String}
    (h : r.knows name = true ∨ name ∈ names) : (r.ensureAll names).knows name = true := by
  induction names generalizing r with
  | nil =>
    rcases h with known | asked
    · exact known
    · cases asked
  | cons first names ih =>
    have kept (known : r.knows name = true) : (r.ensure first).knows name = true := by
      rw [ensure]
      split
      · exact known
      · rw [knows, Bool.or_eq_true, List.contains_iff_mem] at known ⊢
        exact known.imp_right fun mem => List.mem_append_left _ mem
    apply ih
    rcases h with known | asked
    · exact .inl (kept known)
    · rcases List.mem_cons.1 asked with rfl | asked
      · exact .inl (knows_ensure r name)
      · exact .inr asked

/-- A name that was asked for and is not to be imported is covered. -/
theorem Registration.covers_of_ensureAll {t : Table} {names : List String} {name : String}
    (asked : name ∈ names) (absent : name ∉ ((start t).ensureAll names).pending) :
    t.covers name = true := by
  have known := @knows_ensureAll (start t) names name (.inr asked)
  rw [knows, table_ensureAll, Bool.or_eq_true, List.contains_iff_mem] at known
  exact known.resolve_right absent

end MonoTap.Imports

namespace MonoTap

open Imports (Registration Table)
open Java (CompilationUnit qualify)
open Receiver (monoName monoSimpleName)

/-- What makes a call eligible: its receiver has the type by its qualified name, or the simple name is
covered and the type of the receiver goes by that name or is not known. -/
theorem spelled_of_eligible {u : CompilationUnit} {call : Java.Cursor} (h : call ∈ eligibleCalls u) :
    ∃ receiver, call.node.child? .object = some receiver ∧
      let type := (Receiver.type? u.source (call.down receiver)).map (·.name)
      type = some monoName ∨
        (knowsMono u = true ∧ (type = some monoSimpleName ∨ type = none)) := by
  obtain ⟨_, eligible⟩ := List.mem_filter.1 h
  rw [isEligible, Bool.and_eq_true] at eligible
  obtain ⟨_, passes⟩ := eligible
  split at passes
  · cases passes
  · rename_i receiver found
    refine ⟨receiver, found, ?_⟩
    obtain ⟨_, typed⟩ := Bool.and_eq_true_iff.1 passes
    cases type : Receiver.type? u.source (call.down receiver) with
    | none =>
      rw [type] at typed
      exact .inr ⟨typed, .inr rfl⟩
    | some t =>
      rw [type] at typed
      dsimp only at typed
      rw [Receiver.isMono, Bool.or_eq_true, Bool.and_eq_true, beq_iff_eq, beq_iff_eq] at typed
      rcases typed with qualified | ⟨simple, known⟩
      · exact .inl (congrArg some qualified)
      · exact .inr ⟨known, .inl (congrArg some simple)⟩

/-- A covered name may denote its type by the rules for simple names just when no type of the same simple
name is imported from elsewhere; then it denotes the type as soon as that exists and no package in view
has another one. What may be denoted is covered. Hence, where no such import is in the way, a name that a
conversion asks for and does not import denotes what was asked for, and a call is eligible only if
its receiver has the type by the qualified name, or if the simple name denotes the type. -/
theorem covered_names_denote (u : CompilationUnit) :
    let t := Table.ofUnit u
    (∀ package simple, '.' ∉ simple.toList →
      let name := qualify package simple
      (t.MayDenote simple name ↔
        t.covers name = true ∧ ∀ other ∈ t.imported simple, other = name) ∧
      ((∀ other ∈ t.imported simple, other = name) →
        (∀ names, name ∈ names → name ∉ ((Registration.start t).ensureAll names).pending →
          t.MayDenote simple name) ∧
        ∀ exist, t.covers name = true → exist name →
          (∀ other ∈ t.packageName :: t.onDemand, exist (qualify other simple) →
            qualify other simple = name) → t.Denotes exist simple name)) ∧
    ((∀ other ∈ t.imported monoSimpleName, other = monoName) → ∀ call ∈ eligibleCalls u,
      ∃ receiver, call.node.child? .object = some receiver ∧
        let type := (Receiver.type? u.source (call.down receiver)).map (·.name)
        type = some monoName ∨ (t.MayDenote monoSimpleName monoName ∧
          (type = some monoSimpleName ∨ type = none))) := by
  intro t
  constructor
  · intro package simple plain name
    refine ⟨t.mayDenote_iff plain, fun free => ⟨fun names asked absent => ?_, ?_⟩⟩
    · exact (t.mayDenote_iff plain).2 ⟨Registration.covers_of_ensureAll asked absent, free⟩
    · intro exist covered there alone
      exact Table.denotes_of_covers plain covered free there alone
  · intro free call eligible
    obtain ⟨receiver, found, type⟩ := spelled_of_eligible eligible
    refine ⟨receiver, found, type.imp_right fun ⟨known, spelled⟩ => ⟨?_, spelled⟩⟩
    have plain : '.' ∉ monoSimpleName.toList := by decide
    have name : qualify "reactor.core.publisher" monoSimpleName = monoName := by decide
    have covered : t.covers monoName = true := known
    rw [← name] at covered free ⊢
    exact (t.mayDenote_iff plain).2 ⟨covered, free⟩

/-- A package that is imported as a whole. -/
def wholePackageText : String :=
  "import reactor.core.publisher.*;class C\x7bvoid f(Mono<A> m)\x7bm.doAfterSuccessOrError(g);\x7d\x7d"

/-- The same with another type of the same simple name imported by name. -/
def hiddenMonoText : String := "import other.Mono;" ++ wholePackageText

set_option maxRecDepth 100000 in
theorem read_wholePackageText :
    let u := CompilationUnit.ofString wholePackageText
    (Table.ofUnit u).covers monoName = true ∧ (Table.ofUnit u).imported monoSimpleName = [] ∧
      (eligibleCalls u).length = 1 := by
  rw [CompilationUnit.ofString_eq_ofCharsOf]
  decide +kernel

set_option maxRecDepth 100000 in
theorem read_hiddenMonoText :
    let u := CompilationUnit.ofString hiddenMonoText
    (Table.ofUnit u).covers monoName = true ∧
      (Table.ofUnit u).imported monoSimpleName = ["other.Mono"] ∧ (eligibleCalls u).length = 1 := by
  rw [CompilationUnit.ofString_eq_ofCharsOf]
  decide +kernel

/-- In the first of two texts the simple name may denote the type, and a call is eligible. In the other one
the name denotes a type from elsewhere, although the type is covered and the call is eligible as well. -/
theorem covered_names_denote_of_hidden :
    (let u := CompilationUnit.ofString wholePackageText;
      (∀ other ∈ (Table.ofUnit u).imported monoSimpleName, other = monoName) ∧
        (∃ call, call ∈ eligibleCalls u) ∧ (Table.ofUnit u).MayDenote monoSimpleName monoName) ∧
    (let u := CompilationUnit.ofString hiddenMonoText;
      (Table.ofUnit u).covers monoName = true ∧ (∃ call, call ∈ eligibleCalls u) ∧
        ¬ (Table.ofUnit u).MayDenote monoSimpleName monoName) := by
  have plain : '.' ∉ monoSimpleName.toList := by decide
  have name : qualify "reactor.core.publisher" monoSimpleName = monoName := by decide
  constructor
  · obtain ⟨covered, free, calls⟩ := read_wholePackageText
    have none : ∀ other ∈ (Table.ofUnit (.ofString wholePackageText)).imported monoSimpleName,
        other = monoName := by
      rw [free]
      exact fun _ mem => (List.not_mem_nil mem).elim
    refine ⟨none, List.length_pos_iff_exists_mem.1 (calls ▸ Nat.zero_lt_one), ?_⟩
    have known := ((covered_names_denote (.ofString wholePackageText)).1 "reactor.core.publisher"
      monoSimpleName plain).1
    rw [name] at known
    exact known.2 ⟨covered, none⟩
  · obtain ⟨covered, foreign, calls⟩ := read_hiddenMonoText
    refine ⟨covered, List.length_pos_iff_exists_mem.1 (calls ▸ Nat.zero_lt_one), fun denotes => ?_⟩
    have known := ((covered_names_denote (.ofString hiddenMonoText)).1 "reactor.core.publisher"
      monoSimpleName plain).1
    rw [name] at known
    have alone := (known.1 denotes).2 "other.Mono" (by rw [foreign]; exact List.mem_cons_self)
    exact absurd alone (by decide)

end MonoTap

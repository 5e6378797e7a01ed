import Mathlib.Data.List.Basic
import Mathlib.Data.List.Find
import MonoTap.Imports.Registration
import MonoTap.Proofs.MovedEdits
import MonoTap.Proofs.MovedTrees

/-!
# Imports and carriage returns

With carriage returns put in, a compilation unit has the same package and imports, and new imports are
declared at the same places. The places among sorted imports depend on the order of their names. That
is the same if no name holds one of the characters between a line feed and a carriage return, a
vertical tab or a form feed: a line break in a name comes before them, and with a carriage return after
them.
-/

set_option autoImplicit false

namespace MonoTap.Text

variable {s t : String}

/-! ### The order of texts -/

/-- A text without the characters from the vertical tab to the carriage return. -/
def Ordered (cs : List Char) : Prop :=
  ∀ c ∈ cs, c ≠ '\x0b' ∧ c ≠ '\x0c' ∧ c ≠ '\r'

theorem Ordered.tail {c : Char} {cs : List Char} (h : Ordered (c :: cs)) : Ordered cs :=
  fun d hd => h d (List.mem_cons_of_mem c hd)

/-- No character of such a text lies between a line feed and a carriage return. -/
theorem Ordered.not_between {c : Char} {cs : List Char} (h : Ordered (c :: cs)) :
    c.toNat ≤ 10 ∨ 13 < c.toNat := by
  obtain ⟨tab, form, back⟩ := h c List.mem_cons_self
  have tab' : c.toNat ≠ 11 := fun same => tab (Char.toNat_inj.1 same)
  have form' : c.toNat ≠ 12 := fun same => form (Char.toNat_inj.1 same)
  have back' : c.toNat ≠ 13 := fun same => back (Char.toNat_inj.1 same)
  omega

theorem cons_lt_cons_iff_of_ne {c d : Char} (h : c ≠ d) (cs ds : List Char) :
    c :: cs < d :: ds ↔ c.toNat < d.toNat := by
  rw [List.cons_lt_cons_iff]
  exact or_iff_left fun same => h same.1

/-- Texts keep their order. -/
theorem crlf_lt_crlf_iff {cs ds : List Char} (hc : Ordered cs) (hd : Ordered ds) :
    crlf cs < crlf ds ↔ cs < ds := by
  induction cs generalizing ds with
  | nil =>
    cases ds with
    | nil => exact Iff.rfl
    | cons d ds =>
      have first : ∃ e es, crlf (d :: ds) = e :: es := by
        by_cases feed : d = '\n'
        · rw [feed]
          exact ⟨_, _, rfl⟩
        · exact ⟨_, _, crlf_cons feed ds⟩
      obtain ⟨e, es, moved⟩ := first
      rw [moved]
      exact iff_of_true (List.nil_lt_cons _ _) (List.nil_lt_cons _ _)
  | cons c cs ih =>
    cases ds with
    | nil => exact iff_of_false (List.not_lt_nil _) (List.not_lt_nil _)
    | cons d ds =>
      have further := ih hc.tail hd.tail
      by_cases feed : c = '\n'
      · by_cases feed' : d = '\n'
        · subst feed feed'
          have same (b : Char) (bs es : List Char) : b :: bs < b :: es ↔ bs < es := by
            rw [List.cons_lt_cons_iff]
            exact ⟨fun h => h.elim (fun less => (Char.lt_irrefl b less).elim) And.right,
              fun h => .inr ⟨rfl, h⟩⟩
          rw [crlf_cons_lineFeed, crlf_cons_lineFeed, same, same, same, further]
        · subst feed
          have apart := hd.not_between
          have other : d.toNat ≠ 10 := fun same => feed' (Char.toNat_inj.1 same)
          have back : '\r' ≠ d := fun same => by
            rw [← same] at apart
            revert apart
            decide
          rw [crlf_cons_lineFeed, crlf_cons feed', cons_lt_cons_iff_of_ne back,
            cons_lt_cons_iff_of_ne (Ne.symm feed')]
          show 13 < d.toNat ↔ 10 < d.toNat
          omega
      · by_cases feed' : d = '\n'
        · subst feed'
          have apart := hc.not_between
          have other : c.toNat ≠ 10 := fun same => feed (Char.toNat_inj.1 same)
          have back : c ≠ '\r' := fun same => by
            rw [same] at apart
            revert apart
            decide
          rw [crlf_cons_lineFeed, crlf_cons feed, cons_lt_cons_iff_of_ne back,
            cons_lt_cons_iff_of_ne feed]
          show c.toNat < 13 ↔ c.toNat < 10
          omega
        · rw [crlf_cons feed, crlf_cons feed', List.cons_lt_cons_iff, List.cons_lt_cons_iff, further]

theorem crlfText_lt_iff (hs : Ordered s.toList) (ht : Ordered t.toList) :
    crlfText s < crlfText t ↔ s < t := by
  show (crlfText s).toList < (crlfText t).toList ↔ s.toList < t.toList
  rw [toList_crlfText, toList_crlfText, crlf_lt_crlf_iff hs ht]

end MonoTap.Text

namespace MonoTap.Java

open Text (Source crlfText beq_crlfText)

variable {text : String} {s : Source} {n root : Node}

/-! ### Declarations of a unit -/

/-- The import with a carriage return put before each line feed. -/
def ImportDeclaration.crlf (s : Source) (d : ImportDeclaration) : ImportDeclaration :=
  { d with name := crlfText d.name, start := s.moved d.start, stop := s.moved d.stop }

/-- The package with a carriage return put before each line feed. -/
def PackageDeclaration.crlf (s : Source) (p : PackageDeclaration) : PackageDeclaration :=
  ⟨crlfText p.name, s.moved p.stop⟩

theorem dottedName?_crlf (h : n.Belongs text.toList) :
    (dottedName? (n.crlf s)).map (Node.text s.crlf) =
      ((dottedName? n).map (Node.text s)).map crlfText := by
  rw [dottedName?, Node.namedChildren_crlf, Node.find?_map_crlf fun m _ => Node.isAny_crlf m _,
    dottedName?]
  cases found : n.namedChildren.find? fun c => c.isAny [.scopedIdentifier, .identifier] with
  | none => rfl
  | some name =>
    have inside := Node.mem_children_of_mem_namedChildren (List.mem_of_find?_eq_some found)
    have is := List.find?_some found
    have plain : name.is .lineComment = false := by
      cases comment : name.is .lineComment with
      | false => rfl
      | true =>
        rw [Node.is, beq_iff_eq] at comment
        rw [Node.isAny, List.any_cons, Node.is, comment, List.any_cons, Node.is, comment] at is
        cases is
    exact congrArg some ((h.child inside).text_crlf plain)

theorem ofNode?_crlf (h : n.Belongs text.toList) :
    ImportDeclaration.ofNode? s.crlf (n.crlf s) =
      (ImportDeclaration.ofNode? s n).map (ImportDeclaration.crlf s) := by
  have static : ((n.crlf s).children.any fun c => c.label == .token "static") =
      n.children.any fun c => c.label == .token "static" := by
    rw [Node.children_crlf, List.any_map]
    exact congrArg (List.any n.children) (funext fun c => by rw [Function.comp_apply, Node.label_crlf])
  have wildcard : ((n.crlf s).children.any fun c => c.is .asterisk) =
      n.children.any fun c => c.is .asterisk := by
    rw [Node.children_crlf, List.any_map]
    exact congrArg (List.any n.children) (funext fun c => by rw [Function.comp_apply, Node.is_crlf])
  have name := dottedName?_crlf (s := s) h
  rw [ImportDeclaration.ofNode?, static, wildcard, Node.is_crlf, Node.start_crlf,
    ImportDeclaration.ofNode?]
  split
  · rename_i is
    rw [h.stop_crlf (Node.not_lineComment (Node.isComment_of_is is rfl))]
    cases found : dottedName? n with
    | none =>
      cases found' : dottedName? (n.crlf s) with
      | none => rfl
      | some m =>
        rw [found, found'] at name
        cases name
    | some m =>
      cases found' : dottedName? (n.crlf s) with
      | none =>
        rw [found, found'] at name
        cases name
      | some m' =>
        rw [found, found'] at name
        have same : m'.text s.crlf = crlfText (m.text s) := Option.some.inj name
        simp only [Option.map_some, same]
        rfl
  · rfl

section

variable (belongs : ∀ m ∈ root.children, m.Belongs text.toList)
include belongs

theorem importsOf_crlf :
    importsOf s.crlf (root.crlf s) = (importsOf s root).map (ImportDeclaration.crlf s) := by
  rw [importsOf, Node.namedChildren_crlf, List.filterMap_map, importsOf, List.map_filterMap]
  exact List.filterMap_congr fun n hn =>
    ofNode?_crlf (belongs n (Node.mem_children_of_mem_namedChildren hn))

theorem packageOf?_crlf :
    packageOf? s.crlf (root.crlf s) = (packageOf? s root).map (PackageDeclaration.crlf s) := by
  rw [packageOf?, Node.ofKind?_crlf, packageOf?]
  cases found : root.ofKind? .packageDeclaration with
  | none => rfl
  | some n =>
    have own := belongs n (Node.mem_children_of_mem_namedChildren (List.mem_of_find?_eq_some found))
    have is := List.find?_some found
    have name : (((dottedName? n).map (Node.text s)).map crlfText).getD "" =
        crlfText (((dottedName? n).map (Node.text s)).getD "") := by
      cases (dottedName? n).map (Node.text s) <;> rfl
    simp only [Option.map_some, dottedName?_crlf own, name,
      own.stop_crlf (Node.not_lineComment (Node.isComment_of_is is rfl))]
    rfl

end

end MonoTap.Java

namespace MonoTap.Imports

open Java (ImportDeclaration PackageDeclaration)
open Text (Edit Source crlfText crlfText_append beq_crlfText Ordered)

variable {s : Source} {name : String}

/-! ### Known names -/

/-- The table with a carriage return put before each line feed. -/
def Table.crlf (s : Source) (t : Table) : Table :=
  ⟨t.imports.map (ImportDeclaration.crlf s), t.package.map (PackageDeclaration.crlf s)⟩

theorem importCovers_crlf {package : String} (inLine : '\n' ∉ package.toList)
    (inLine' : '\n' ∉ name.toList) (d : ImportDeclaration) :
    importCovers package name (d.crlf s) = importCovers package name d := by
  show (!d.isStatic && crlfText d.name == if d.isWildcard then package else name) = _
  rw [importCovers, beq_crlfText]
  split
  · exact inLine
  · exact inLine'

theorem covers_crlf (t : Table) (inLine : '\n' ∉ name.toList) :
    (t.crlf s).covers name = t.covers name := by
  have inPackage : '\n' ∉ (String.ofList (qualifierOf name.toList)).toList := by
    intro mem
    rw [String.toList_ofList, qualifierOf, List.mem_reverse] at mem
    have suffix := (List.drop_suffix 1 _).trans
      (List.dropWhile_suffix (l := name.toList.reverse) (· != '.'))
    exact inLine (List.mem_reverse.1 (suffix.subset mem))
  have package : (t.crlf s).packageName = crlfText t.packageName := by
    rw [Table.packageName, Table.crlf, Option.map_map, Table.packageName]
    cases t.package <;> rfl
  have known : (t.crlf s).imports.any
        (importCovers (String.ofList (qualifierOf name.toList)) name) =
      t.imports.any (importCovers (String.ofList (qualifierOf name.toList)) name) := by
    show (t.imports.map _).any _ = _
    rw [List.any_map]
    exact congrArg (List.any t.imports)
      (funext fun d => importCovers_crlf inPackage inLine d)
  have own : (String.ofList (qualifierOf name.toList) == crlfText t.packageName) =
      (String.ofList (qualifierOf name.toList) == t.packageName) := by
    rw [Bool.eq_iff_iff, beq_iff_eq, beq_iff_eq, eq_comm, Text.crlfText_eq_iff inPackage, eq_comm]
  rw [Table.covers, package, known, own, Table.covers]

/-! ### New imports -/

/-- The names asked for, with a carriage return put before each line feed of the unit. -/
def Registration.crlf (s : Source) (r : Registration) : Registration :=
  ⟨r.table.crlf s, r.pending⟩

theorem ensureAll_crlf (r : Registration) {names : List String}
    (inLine : ∀ name ∈ names, '\n' ∉ name.toList) :
    (r.crlf s).ensureAll names = (r.ensureAll names).crlf s := by
  induction names generalizing r with
  | nil => rfl
  | cons name names ih =>
    have own : (r.crlf s).ensure name = (r.ensure name).crlf s := by
      have known : (r.crlf s).knows name = r.knows name := by
        rw [Registration.knows, Registration.crlf, covers_crlf r.table (inLine name List.mem_cons_self),
          Registration.knows]
      rw [Registration.ensure, known, Registration.ensure]
      split <;> rfl
    have others := ih (r.ensure name) fun other h => inLine other (List.mem_cons_of_mem _ h)
    rw [Registration.ensureAll, List.foldl_cons, own]
    exact others

theorem insertion_crlf (offset : Nat) (text : String) :
    (insertion offset text).crlf s.toBytes = insertion (s.moved offset) (crlfText text) := rfl

theorem sortNames_crlf {names : List String} (ordered : ∀ name ∈ names, Ordered name.toList) :
    sortNames (names.map crlfText) = (sortNames names).map crlfText := by
  refine (List.map_mergeSort fun a ha b hb => ?_).symm
  rw [decide_eq_decide, ← String.not_lt, ← String.not_lt, not_iff_not,
    Text.crlfText_lt_iff (ordered b hb) (ordered a ha)]

/-! ### Declarations of imports -/

theorem crlfText_declarationOf (inLine : '\n' ∉ name.toList) :
    crlfText (declarationOf name) = declarationOf name := by
  rw [declarationOf, crlfText_append, crlfText_append, Text.crlfText_of_not_mem inLine,
    Text.crlfText_of_not_mem (s := "import ") (by decide),
    Text.crlfText_of_not_mem (s := ";") (by decide)]

theorem sortedInsertion_crlf {imports : List ImportDeclaration} {last : ImportDeclaration}
    (inLine : '\n' ∉ name.toList) (own : Ordered name.toList)
    (ordered : ∀ d ∈ imports, Ordered d.name.toList) :
    sortedInsertion s.crlf "\r\n" (imports.map (ImportDeclaration.crlf s)) (last.crlf s) name =
      (sortedInsertion s "\n" imports last name).crlf s.toBytes := by
  have later : (imports.map (ImportDeclaration.crlf s)).find? (fun d => decide (name < d.name)) =
      (imports.find? fun d => decide (name < d.name)).map (ImportDeclaration.crlf s) := by
    rw [List.find?_map]
    refine congrArg _ (List.find?_congr fun d hd => decide_eq_decide.2 ?_)
    have order := Text.crlfText_lt_iff own (ordered d hd)
    rwa [Text.crlfText_of_not_mem inLine] at order
  have line : crlfText "\n" = "\r\n" := rfl
  rw [sortedInsertion, later, sortedInsertion]
  cases imports.find? fun d => decide (name < d.name) with
  | none =>
    show insertion (s.moved last.stop) _ = _
    rw [insertion_crlf, crlfText_append, line, crlfText_declarationOf inLine]
  | some next =>
    show insertion (s.crlf.lineStart (s.moved next.start)) _ = _
    rw [insertion_crlf, crlfText_append, line, crlfText_declarationOf inLine, s.lineStart_crlf]

theorem map_declarationOf {names : List String} (inLine : ∀ name ∈ names, '\n' ∉ name.toList) :
    names.map declarationOf = (names.map declarationOf).map crlfText := by
  rw [List.map_map]
  exact List.map_congr_left fun name h => (crlfText_declarationOf (inLine name h)).symm

theorem openingInsertion_crlf {names : List String} (inLine : ∀ name ∈ names, '\n' ∉ name.toList)
    (packageEnd : Option Nat) :
    openingInsertion "\r\n" (packageEnd.map s.moved) names =
      (openingInsertion "\n" packageEnd names).crlf s.toBytes := by
  have line : crlfText "\n" = "\r\n" := rfl
  have block := Text.crlfText_intercalate "\n" (names.map declarationOf)
  rw [← map_declarationOf inLine, line] at block
  cases packageEnd with
  | none =>
    simp only [openingInsertion, Option.map_none, insertion_crlf, s.moved_zero, crlfText_append, line,
      block]
  | some stop =>
    simp only [openingInsertion, Option.map_some, insertion_crlf, crlfText_append, line, block]

/-- The declarations after the last import, each on a line of its own. -/
theorem join_declarations_crlf {names : List String} (inLine : ∀ name ∈ names, '\n' ∉ name.toList) :
    String.join (names.map ("\r\n" ++ declarationOf ·)) =
      crlfText (String.join (names.map ("\n" ++ declarationOf ·))) := by
  rw [← Text.crlfText_join, List.map_map]
  refine congrArg _ (List.map_congr_left fun name h => ?_)
  rw [Function.comp_apply, crlfText_append, crlfText_declarationOf (inLine name h)]
  rfl

theorem mem_sortNames {names : List String} : name ∈ sortNames names ↔ name ∈ names :=
  (List.mergeSort_perm names _).mem_iff

/-- Imports are sorted with the carriage returns or without. -/
theorem sorted_crlf {imports : List ImportDeclaration}
    (ordered : ∀ d ∈ imports, Ordered d.name.toList) :
    ((imports.map (ImportDeclaration.crlf s)).map (·.name) ==
        sortNames ((imports.map (ImportDeclaration.crlf s)).map (·.name))) =
      (imports.map (·.name) == sortNames (imports.map (·.name))) := by
  have names : (imports.map (ImportDeclaration.crlf s)).map (·.name) =
      (imports.map (·.name)).map crlfText := by
    rw [List.map_map, List.map_map]
    rfl
  have each : ∀ name ∈ imports.map (·.name), Ordered name.toList := by
    intro name h
    obtain ⟨d, hd, rfl⟩ := List.mem_map.1 h
    exact ordered d hd
  rw [names, sortNames_crlf each, Bool.eq_iff_iff, beq_iff_eq, beq_iff_eq]
  exact (List.map_injective_iff.2 fun a b => Text.crlfText_injective).eq_iff

/-- The new imports are declared at the same places. -/
theorem edits_crlf (r : Registration) (old : Text.newlineOf s.toBytes = "\n")
    (new : Text.newlineOf s.crlf.toBytes = "\r\n")
    (pending : ∀ name ∈ r.pending, '\n' ∉ name.toList ∧ Ordered name.toList)
    (regular : ∀ d ∈ r.table.imports, d.isStatic = false → Ordered d.name.toList) :
    (r.crlf s).edits s.crlf = (r.edits s).map (Edit.crlf s.toBytes) := by
  have inLine : ∀ name ∈ sortNames r.pending, '\n' ∉ name.toList := fun name h =>
    (pending name (mem_sortNames.1 h)).1
  have wanted : (r.crlf s).pending = r.pending := rfl
  have imports : (r.crlf s).table.imports = r.table.imports.map (ImportDeclaration.crlf s) := rfl
  have ends : (r.crlf s).table.package.map (·.stop) =
      (r.table.package.map (·.stop)).map s.moved := by
    show (r.table.package.map _).map _ = _
    rw [Option.map_map, Option.map_map]
    rfl
  have kept : (r.table.imports.map (ImportDeclaration.crlf s)).filter (!·.isStatic) =
      (r.table.imports.filter (!·.isStatic)).map (ImportDeclaration.crlf s) := by
    rw [List.filter_map]
    rfl
  have ordered : ∀ d ∈ r.table.imports.filter (!·.isStatic), Ordered d.name.toList := by
    intro d hd
    rw [List.mem_filter, Bool.not_eq_true'] at hd
    exact regular d hd.1 hd.2
  have joined (last : ImportDeclaration) :
      insertion (last.crlf s).stop
          (String.join ((sortNames r.pending).map ("\r\n" ++ declarationOf ·))) =
        (insertion last.stop
          (String.join ((sortNames r.pending).map ("\n" ++ declarationOf ·)))).crlf s.toBytes := by
    rw [join_declarations_crlf inLine, insertion_crlf]
    rfl
  simp only [Registration.edits, wanted, imports, ends, new, old, kept, List.getLast?_map]
  split
  · rfl
  · cases r.table.imports.getLast? with
    | none => exact congrArg (fun e => [e]) (openingInsertion_crlf inLine _)
    | some last =>
      generalize r.table.imports.filter (!·.isStatic) = regular at ordered
      cases regular.getLast? with
      | none => exact congrArg (fun e => [e]) (joined last)
      | some lastRegular =>
        simp only [Option.map_some, sorted_crlf ordered]
        split
        · rw [List.map_map]
          exact List.map_congr_left fun name h =>
            sortedInsertion_crlf (inLine name h) (pending name (mem_sortNames.1 h)).2 ordered
        · exact congrArg (fun e => [e]) (joined last)

end MonoTap.Imports

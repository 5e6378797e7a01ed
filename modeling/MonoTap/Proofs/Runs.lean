import MonoTap.Proofs.InsertedComments
import MonoTap.Proofs.TopLevel

/-!
# Runs of constructs

A compilation unit is a run of constructs. Between two of them is a seam if what stands before it is read
in the same way before any declaration of an import: so it is before such a declaration, after one, after
the declaration of the package, and at the beginning. A declaration may be put in at a seam.
-/

set_option autoImplicit false

namespace MonoTap.Java

open Grammar (ruleOf topLevel program typeDeclaration beforeDeclaration)
open Rule (Reads)

variable {ts us front back own rest rest' : List Token} {nodes others inside : List Node} {n : Node}
  {k : Kind} {out : Reading}

/-- Constructs that are read one after the other, before some other tokens. -/
inductive Run (rest : List Token) : List Token → List Node → Prop
  | nil : Run rest [] []
  | cons {ts us : List Token} {nodes others : List Node}
      (first : Reads ruleOf topLevel [] (ts ++ (us ++ rest)) (some (nodes, us ++ rest)))
      (nonempty : ts ≠ []) (more : Run rest us others) : Run rest (ts ++ us) (nodes ++ others)

theorem shorter_append (nonempty : ts ≠ []) (us : List Token) : us.length < (ts ++ us).length := by
  have := List.length_pos_iff.2 nonempty
  rw [List.length_append]
  omega

theorem Run.reads {left : List Token} (h : Run rest front nodes)
    (after : Reads ruleOf program [] rest (some (others, left))) :
    Reads ruleOf program [] (front ++ rest) (some (nodes ++ others, left)) := by
  induction h with
  | nil => exact after
  | cons first nonempty more ih =>
    rw [List.append_assoc, List.append_assoc]
    exact Reads.manyMore first (shorter_append nonempty _) ih

theorem Run.append (first : Run (us ++ rest) ts nodes) (second : Run rest us others) :
    Run rest (ts ++ us) (nodes ++ others) := by
  induction first with
  | nil => exact second
  | @cons ts front nodes others' reads nonempty more ih =>
    rw [← List.append_assoc front] at reads
    rw [List.append_assoc, List.append_assoc]
    exact .cons reads nonempty ih

/-- Constructs close what they open, and the last of them ends like one. -/
theorem Run.isConstruct (h : Run rest ts nodes) (plain : ∀ t ∈ ts, t.Plain) :
    brackets ts = 0 ∧ ∀ t, ts.getLast? = some t → t.ends = true := by
  induction h with
  | nil => exact ⟨rfl, fun t ht => by cases ht⟩
  | @cons ts us nodes others first nonempty more ih =>
    obtain ⟨balanced, closed⟩ := ih fun t ht => plain t (List.mem_append_right _ ht)
    obtain ⟨own, split, construct⟩ := isConstruct_of_reads first
    cases List.append_cancel_right split
    refine ⟨?_, fun t ht => ?_⟩
    · rw [brackets_append, balanced, construct.balanced fun t ht => plain t (List.mem_append_left _ ht)]
      rfl
    · rw [List.getLast?_append] at ht
      rcases Option.or_eq_some_iff.1 ht with last | ⟨_, last⟩
      · exact closed t last
      · exact construct.closed t last

theorem Run.holds (h : Run rest ts nodes) (plain : ∀ t ∈ ts, t.Plain) (nonempty : ts ≠ []) {edge : Edge}
    (around : edge ≠ .inside) : Stand.Holds ⟨0, true⟩ edge ts := by
  obtain ⟨balanced, closed⟩ := h.isConstruct plain
  refine ⟨plain, closed, ?_, fun _ => nonempty⟩
  rw [balanced]
  cases edge with
  | inside => exact (around rfl).elim
  | before | anywhere => exact Int.le_refl 0

/-- Constructs are read in the same way before any declaration of an import or of the package. -/
theorem Run.swap (h : Run rest ts nodes) (plain : ∀ t ∈ ts, t.Plain)
    (before : beforeDeclaration.edge.Admits rest) (before' : beforeDeclaration.edge.Admits rest') :
    Run rest' ts nodes := by
  induction h with
  | nil => exact .nil
  | @cons ts us nodes others first nonempty more ih =>
    have whole := Run.cons first nonempty more
    rw [← List.append_assoc] at first
    have traced : topLevel.trace Grammar.mayEnd beforeDeclaration ⟨0, true⟩ = some ⟨0, false⟩ := by
      decide +kernel
    obtain ⟨out, reads, alike⟩ := Reads.alike Grammar.fits_inner Grammar.fits_beforeDeclaration
      first traced (whole.holds plain (by simp [nonempty]) (fun same => by cases same)) before before'
    generalize read : some (nodes, us ++ rest) = result at alike
    cases alike with
    | none => cases read
    | @some _ left reached =>
      rw [Option.some.injEq, Prod.mk.injEq] at read
      obtain ⟨rfl, same⟩ := read
      cases List.append_cancel_right same
      rw [List.append_assoc] at reads
      exact .cons reads nonempty (ih fun t ht => plain t (List.mem_append_right _ ht))

/-- Constructs that are read again before the same tokens. -/
theorem Run.exists_others (h : Run rest ts nodes) {all : List Node}
    (reads : Reads ruleOf program [] (ts ++ rest) (some (all, []))) :
    ∃ others, all = nodes ++ others ∧ Reads ruleOf program [] rest (some (others, [])) := by
  induction h generalizing all with
  | nil => exact ⟨all, rfl, reads⟩
  | @cons ts us nodes others first nonempty more ih =>
    rw [List.append_assoc] at reads
    have whole : ∀ {out}, Reads ruleOf program [] (ts ++ (us ++ rest)) out → out = some (all, []) →
        ∃ others', all = nodes ++ others' ∧ Reads ruleOf program [] (us ++ rest) (some (others', [])) := by
      intro out reads same
      cases reads with
      | manyStop none => cases none.unique first
      | manyStuck found stuck =>
        cases found.unique first
        have shorter := shorter_append nonempty (us ++ rest)
        omega
      | @manyMore _ _ _ _ out _ found shorter after =>
        cases found.unique first
        obtain _ | ⟨others', left⟩ := out
        · cases same
        cases same
        exact ⟨others', rfl, after⟩
    obtain ⟨others', rfl, after⟩ := whole reads rfl
    obtain ⟨further, rfl, last⟩ := ih after
    exact ⟨further, (List.append_assoc ..).symm, last⟩

/-- Constructs are derived from their tokens. -/
theorem Run.derives (h : Run rest ts nodes) : Rule.Derives ruleOf program [] ts nodes := by
  induction h with
  | nil => exact .manyNil
  | cons first nonempty more ih =>
    obtain ⟨own, same, derives⟩ := first.derives Grammar.enters_ruleOf
    cases List.append_cancel_right same
    exact .manyCons derives ih

/-- A compilation unit at one of its nodes: the constructs before the one that gives the node, that one, and
what comes after it. -/
theorem exists_run (h : Reads ruleOf program [] ts (some (nodes, []))) {earlier later : List Node}
    (split : nodes = earlier ++ n :: later) :
    ∃ front us rest before own further others, ts = front ++ (us ++ rest) ∧ earlier = before ++ own ∧
      later = further ++ others ∧ us ≠ [] ∧ Run (us ++ rest) front before ∧
      Reads ruleOf topLevel [] (us ++ rest) (some (own ++ n :: further, rest)) ∧
      Reads ruleOf program [] rest (some (others, [])) := by
  generalize rule : program = r at h
  generalize operand : ([] : List Node) = op at h
  generalize found : some (nodes, ([] : List Token)) = out at h
  induction h generalizing nodes earlier with
  | manyStop | manyStuck =>
    cases found
    cases List.append_ne_nil_of_right_ne_nil earlier (List.cons_ne_nil n later) split.symm
  | @manyMore op nodes' ts rest out r first shorter more _ ih =>
    cases rule
    subst operand
    obtain _ | ⟨others, left⟩ := out
    · cases found
    cases found
    obtain ⟨us, rfl, construct⟩ := isConstruct_of_reads first
    rcases List.append_eq_append_iff.1 split with ⟨own, rfl, tail⟩ | ⟨tail, rfl, here⟩
    · obtain ⟨front, vs, rest', before, own', further, others', rfl, rfl, after, some, run, reads, last⟩ :=
        ih tail rfl rfl rfl
      exact ⟨us ++ front, vs, rest', nodes' ++ before, own', further, others', by simp, by simp, after, some,
        .cons first construct.nonempty run, reads, last⟩
    · cases tail with
      | nil =>
        rw [List.append_nil] at first
        have others_eq : others = [] ++ n :: later := here.symm
        obtain ⟨front, vs, rest', before, own', further, others', rfl, none, after, some, run, reads, last⟩ :=
          ih others_eq rfl rfl rfl
        refine ⟨us ++ front, vs, rest', earlier ++ before, own', further, others', by simp, ?_, after, some,
          .cons first construct.nonempty run, reads, last⟩
        rw [List.append_assoc, ← none, List.append_nil]
      | cons m further =>
        obtain ⟨rfl, after⟩ := List.cons.inj here
        exact ⟨[], us, rest, [], earlier, further, others, rfl, rfl, after, construct.nonempty, .nil, first,
          more⟩
  | _ => cases rule

/-! ### Seams -/

/-- Tokens that are constructs in the same way before any declaration of an import. -/
def IsSeam (front : List Token) (nodes : List Node) : Prop :=
  ∀ rest, beforeDeclaration.edge.Admits rest → Run rest front nodes

theorem isSeam_nil : IsSeam [] [] :=
  fun _ _ => .nil

/-- Before a declaration of an import or of the package. -/
theorem Run.isSeam (h : Run rest ts nodes) (plain : ∀ t ∈ ts, t.Plain)
    (before : beforeDeclaration.edge.Admits rest) : IsSeam ts nodes :=
  fun _ before' => h.swap plain before before'

/-- A declaration of an import or of the package is read in the same way before anything. -/
theorem reads_declaration (h : Reads ruleOf typeDeclaration [] (ts ++ rest) (some (nodes, rest)))
    (construct : IsConstruct ts) (plain : ∀ t ∈ ts, t.Plain) (rest' : List Token) :
    Reads ruleOf typeDeclaration [] (ts ++ rest') (some (nodes, rest')) := by
  have holds : Stand.Holds ⟨0, true⟩ Edge.anywhere ts :=
    ⟨plain, construct.closed, by rw [construct.balanced plain]; exact Int.le_refl 0,
      fun _ => construct.nonempty⟩
  have traced : typeDeclaration.trace Grammar.mayEnd Grammar.beforeAnything ⟨0, true⟩ = some ⟨0, false⟩ := by
    decide +kernel
  have admits (ts : List Token) : Grammar.beforeAnything.edge.Admits ts := trivial
  obtain ⟨out, reads, alike⟩ :=
    Reads.alike Grammar.fits_inner Grammar.fits_beforeAnything h traced holds (admits rest) (admits rest')
  generalize read : some (nodes, rest) = result at alike
  cases alike with
  | none => cases read
  | @some _ left reached =>
    rw [Option.some.injEq, Prod.mk.injEq] at read
    obtain ⟨rfl, same⟩ := read
    cases List.self_eq_append_left.1 same
    exact reads

/-- Tokens that are a declaration of an import or of the package, whatever comes after them. -/
structure IsDeclaration (ts : List Token) (nodes : List Node) : Prop where
  reads : ∀ rest, Reads ruleOf typeDeclaration [] (ts ++ rest) (some (nodes, rest))
  begins : beforeDeclaration.edge.Admits ts

/-- A token that reads like one of the marks is no name. -/
theorem admits_of_reads {t : Token} (plain : t.Plain)
    (h : ∃ text ∈ Grammar.declarationMarks, t.reads text = true) (ts : List Token) :
    beforeDeclaration.edge.Admits (t :: ts) := by
  obtain ⟨text, mem, reads⟩ := h
  refine ⟨t, ts, rfl, ?_, text, mem, reads⟩
  have same := Token.text_of_reads reads
  have known : ∀ text ∈ Grammar.declarationMarks, text.isEmpty = false ∧
      (text = "@" ∨ reservedWords.contains text = true) := by decide
  obtain ⟨nonempty, mark⟩ := known text mem
  rw [← Bool.not_eq_true]
  intro isName
  have other := plain isName
  rw [same] at other
  rcases mark with rfl | reserved
  · exact other List.mem_cons_self
  · rw [Token.isName, same, reserved, nonempty] at isName
    split at isName <;> cases isName

/-- The constructs that give such a declaration. -/
theorem isDeclaration_of_mem (h : Reads ruleOf topLevel [] (us ++ rest) (some (inside, rest)))
    (plain : ∀ t ∈ us, t.Plain) (proper : ∀ t ∈ us ++ rest, t.Proper) (hn : n ∈ inside)
    (is : n.is k = true) (declares : k ∈ Grammar.declarations) : IsDeclaration us inside := by
  obtain ⟨reads, t, vs, split, begins⟩ := reads_typeDeclaration h proper hn is declares
  obtain ⟨own, same, construct⟩ := isConstruct_of_reads h
  cases List.append_cancel_right same
  refine ⟨reads_declaration reads construct plain, ?_⟩
  cases us with
  | nil => exact (construct.nonempty rfl).elim
  | cons u us =>
    cases (List.cons.inj split).1
    exact admits_of_reads (plain t List.mem_cons_self) begins us

theorem admits_append (h : beforeDeclaration.edge.Admits ts) (rest : List Token) :
    beforeDeclaration.edge.Admits (ts ++ rest) := by
  obtain ⟨t, us, rfl, begins⟩ := h
  exact ⟨t, us ++ rest, rfl, begins⟩

theorem IsDeclaration.nonempty (h : IsDeclaration ts nodes) : ts ≠ [] := by
  obtain ⟨t, us, rfl, _⟩ := h.begins
  exact List.cons_ne_nil t us

theorem IsDeclaration.run (h : IsDeclaration ts nodes) (rest : List Token) : Run rest ts nodes := by
  have first := reads_topLevel (h.reads rest) (admits_append h.begins rest)
  have single : Run rest (ts ++ []) (nodes ++ []) := .cons first h.nonempty .nil
  rwa [List.append_nil, List.append_nil] at single

/-- After a declaration of an import or of the package. -/
theorem IsDeclaration.isSeam (h : IsDeclaration us inside) (seam : IsSeam ts nodes) :
    IsSeam (ts ++ us) (nodes ++ inside) :=
  fun rest _ => (seam _ (admits_append h.begins rest)).append (h.run rest)

/-- A declaration may be put in at a seam. -/
theorem IsDeclaration.reads_program (h : IsDeclaration us inside) (seam : IsSeam ts nodes)
    (after : Reads ruleOf program [] rest (some (others, []))) :
    Reads ruleOf program [] (ts ++ (us ++ rest)) (some (nodes ++ (inside ++ others), [])) :=
  (seam _ (admits_append h.begins rest)).reads ((h.run rest).reads after)

end MonoTap.Java

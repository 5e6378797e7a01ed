import Mathlib.Data.List.Forall2
import MonoTap.Proofs.Layout

/-!
# Statements that are alike

The statements of two callbacks may be related one by one. The buckets they go to are the same if the
statements mention the same bindings and the guards make the same tests, whatever the texts are.
-/

set_option autoImplicit false

namespace MonoTap

/-! ### Attempts -/

/-- Two attempts that fail in the same way, or succeed with related results. -/
inductive Alike {ε α β : Type} (r : α → β → Prop) : Except ε α → Except ε β → Prop
  | error (e : ε) : Alike r (.error e) (.error e)
  | ok {a : α} {b : β} (h : r a b) : Alike r (.ok a) (.ok b)

namespace Alike

variable {ε α β γ δ : Type} {r : α → β → Prop} {t : γ → δ → Prop} {x : Except ε α} {y : Except ε β}
  {f : α → Except ε γ} {g : β → Except ε δ}

theorem bind (h : Alike r x y) (next : ∀ a b, r a b → Alike t (f a) (g b)) :
    Alike t (x >>= f) (y >>= g) := by
  cases h with
  | error e => exact .error e
  | ok own => exact next _ _ own

theorem mapM {l : List α} {m : List β} (h : List.Forall₂ r l m)
    (next : ∀ a b, r a b → Alike t (f a) (g b)) : Alike (List.Forall₂ t) (l.mapM f) (m.mapM g) := by
  induction h with
  | nil => exact .ok .nil
  | cons own _ ih =>
    rw [List.mapM_cons, List.mapM_cons]
    exact (next _ _ own).bind fun _ _ first => ih.bind fun _ _ others => .ok (.cons first others)

theorem eq {x y : Except ε α} (h : Alike (· = ·) x y) : x = y := by
  cases h with
  | error e => rfl
  | ok same => rw [same]

theorem refl (x : Except ε α) : Alike (· = ·) x x := by
  cases x with
  | error e => exact .error e
  | ok a => exact .ok rfl

end Alike

end MonoTap

namespace MonoTap.Callback

open Text (Source)

/-! ### Positions -/

section

variable {R : Statement → Statement → Prop} {l m : List Statement}

theorem get?_related (h : List.Forall₂ R l m) (i : Int) :
    Option.Rel R (Arena.get? ⟨l⟩ i) (Arena.get? ⟨m⟩ i) := by
  have at' (k : Nat) : Option.Rel R l[k]? m[k]? := by
    induction h generalizing k with
    | nil => exact .none
    | cons own _ ih =>
      cases k with
      | zero => exact .some own
      | succ k => exact ih k
  have size : Arena.size ⟨m⟩ = Arena.size ⟨l⟩ := h.length_eq.symm
  rw [Arena.get?, Arena.get?, size]
  split
  · exact at' _
  · split
    · exact at' _
    · exact .none

/-- What is found at a position. -/
theorem get_related (h : List.Forall₂ R l m) (i : Int) :
    Alike R (Arena.get ⟨l⟩ i) (Arena.get ⟨m⟩ i) := by
  have found := get?_related h i
  rw [Arena.get, Arena.get]
  generalize Arena.get? ⟨l⟩ i = x at found
  generalize Arena.get? ⟨m⟩ i = y at found
  cases found with
  | none => exact .error _
  | some related => exact .ok related

theorem mapM_get_related (h : List.Forall₂ R l m) (positions : List Int) :
    Alike (List.Forall₂ R) (positions.mapM (Arena.get ⟨l⟩)) (positions.mapM (Arena.get ⟨m⟩)) :=
  Alike.mapM (List.forall₂_same.2 fun _ _ => rfl) fun i j (same : i = j) => same ▸ get_related h i

end

/-! ### Buckets -/

/-- Guards that make the same test of bindings with the same number. -/
structure Guard.Alike (g h : Guard) : Prop where
  subject : g.subject.id = h.subject.id
  check : g.check = h.check
  thenBranch : g.thenBranch = h.thenBranch
  elseBranch : g.elseBranch = h.elseBranch

/-- Statements that mention the same bindings and make the same test, if they are guards. -/
structure Statement.Alike (a b : Statement) : Prop where
  kind : a.kind = b.kind
  references : a.references = b.references
  guard : Option.Rel Guard.Alike a.guard b.guard

/-- Parameters with the same numbers. -/
structure Parameters.Alike (p q : Parameters) : Prop where
  value : p.value.id = q.value.id
  error : p.error.id = q.error.id

variable {a b : Statement} {g h : Guard} {p q : Parameters} {l m : List Statement}

theorem Statement.Alike.uses (same : a.Alike b) {x y : Binding} (id : x.id = y.id) :
    a.uses x = b.uses y := by
  rw [Statement.uses, Statement.uses, same.references, id]

theorem Statement.Alike.guard? (same : a.Alike b) : Option.Rel Guard.Alike a.guard? b.guard? := by
  rw [Statement.guard?, Statement.guard?, ← same.kind]
  cases a.kind with
  | plain => exact .none
  | guard => exact same.guard

theorem Parameters.Alike.bucketOf (params : p.Alike q) (same : a.Alike b) :
    p.bucketOf a = q.bucketOf b := by
  rw [Parameters.bucketOf, Parameters.bucketOf, same.uses params.value, same.uses params.error]

theorem Parameters.Alike.contains (params : p.Alike q) (same : g.Alike h) :
    p.contains g.subject = q.contains h.subject := by
  simp only [Parameters.contains, Binding.same, same.subject, params.value, params.error]

/-- The targets of guards that make the same test. -/
theorem Guard.Alike.targets (same : g.Alike h) (params : p.Alike q) :
    (g.targets p).parameter.id = (h.targets q).parameter.id ∧
      (g.targets p).thenBucket = (h.targets q).thenBucket ∧
      (g.targets p).elseBucket = (h.targets q).elseBucket := by
  simp only [Guard.targets, Binding.same, same.subject, same.check, params.value]
  by_cases first : ((h.subject.id == q.value.id) == (h.check == .notNull)) = true
  · simp [first, params.value]
  · simp [first, params.error]

theorem split_alike (all : List.Forall₂ Statement.Alike l m) (params : p.Alike q)
    (same : g.Alike h) : g.split p ⟨l⟩ = h.split q ⟨m⟩ := by
  obtain ⟨parameter, thenBucket, elseBucket⟩ := same.targets params
  have each (i : Int) :
      (do
        let s ← Arena.get ⟨l⟩ i
        return (if s.uses (g.targets p).parameter then (g.targets p).thenBucket else .termination, i)) =
      (do
        let s ← Arena.get ⟨m⟩ i
        return (if s.uses (h.targets q).parameter then (h.targets q).thenBucket
          else .termination, i) : Except NoStatement (Bucket × Int)) := by
    apply Alike.eq
    apply (get_related all i).bind
    intro a b own
    rw [own.uses parameter, thenBucket]
    exact .refl _
  rw [Guard.split, Guard.split, ← same.thenBranch, ← same.elseBranch, elseBucket]
  simp only [each]

theorem assign_alike (all : List.Forall₂ Statement.Alike l m) (params : p.Alike q) (i : Int) :
    assign p ⟨l⟩ i = assign q ⟨m⟩ i := by
  apply Alike.eq
  apply (get_related all i).bind
  intro a b own
  have guards := own.guard?
  rw [params.bucketOf own]
  generalize a.guard? = x at guards
  generalize b.guard? = y at guards
  cases guards with
  | none => exact .refl _
  | some same =>
    dsimp only
    rw [params.contains same, split_alike all params same]
    exact .refl _

/-- Statements that are alike go to the same buckets. -/
theorem classify_alike (all : List.Forall₂ Statement.Alike l m) (params : p.Alike q)
    (body : List Int) : classify p ⟨l⟩ body = classify q ⟨m⟩ body := by
  have each : assign p ⟨l⟩ = assign q ⟨m⟩ := funext (assign_alike all params)
  rw [classify, classify, assignments, assignments, each]

/-! ### Entries -/

/-- Entries of which the statements are related, wherever they are laid out. -/
structure Entry.Related (R : Statement → Statement → Prop) (s : Source) (r : Resolution) (t : Source)
    (q : Resolution) (before after : Entry) : Prop where
  size : after.size = before.size
  statements : ∀ base, List.Forall₂ R (statementsOf s r base before) (statementsOf t q base after)

section

variable {R : Statement → Statement → Prop} {s t : Source} {r q : Resolution} {es fs : List Entry}

theorem sizeAll_related (h : List.Forall₂ (Entry.Related R s r t q) es fs) :
    sizeAll fs = sizeAll es := by
  induction h with
  | nil => rfl
  | cons own _ ih => rw [sizeAll, sizeAll, own.size, ih]

theorem positionsFrom_related (h : List.Forall₂ (Entry.Related R s r t q) es fs) (base : Nat) :
    positionsFrom base fs = positionsFrom base es := by
  induction h generalizing base with
  | nil => rfl
  | cons own _ ih => rw [positionsFrom, positionsFrom, own.size, ih]

theorem statementsFrom_related (h : List.Forall₂ (Entry.Related R s r t q) es fs) (base : Nat) :
    List.Forall₂ R (statementsFrom s r base es) (statementsFrom t q base fs) := by
  induction h generalizing base with
  | nil =>
    rw [statementsFrom, statementsFrom]
    exact .nil
  | cons own _ ih =>
    rw [statementsFrom, statementsFrom, own.size]
    exact List.rel_append (own.statements base) (ih _)

variable {start stop start' stop' : Nat}

theorem related_plain (own : R (statementAt s r start stop none) (statementAt t q start' stop' none)) :
    Entry.Related R s r t q (.plain start stop) (.plain start' stop') := by
  refine ⟨rfl, fun base => ?_⟩
  rw [statementsOf, statementsOf]
  exact .cons own .nil

/-- Guards are related if their branches are and the guards themselves are for the same positions. -/
theorem related_guard {subject subject' : Binding} {check check' : NullCheck}
    {first first' second second' : List Entry}
    (own : ∀ one two, R (statementAt s r start stop (some ⟨subject, check, one, two⟩))
      (statementAt t q start' stop' (some ⟨subject', check', one, two⟩)))
    (hfirst : List.Forall₂ (Entry.Related R s r t q) first first')
    (hsecond : List.Forall₂ (Entry.Related R s r t q) second second') :
    Entry.Related R s r t q (.guard start stop subject check first second)
      (.guard start' stop' subject' check' first' second') := by
  have size := sizeAll_related hfirst
  constructor
  · rw [Entry.size, Entry.size, size, sizeAll_related hsecond]
  · intro base
    simp only [statementsOf, size, positionsFrom_related hfirst, positionsFrom_related hsecond]
    exact .cons (own _ _)
      (List.rel_append (statementsFrom_related hfirst _) (statementsFrom_related hsecond _))

end

end MonoTap.Callback

import MonoTap.Proofs.Classification

/-!
# Guards put another way

A test of one parameter against `null` can be put as the opposite test of the other parameter, which
changes no bucket. It can also be inverted, with the branches exchanged. The first branch of a guard
is filtered and the second goes as a whole, so this changes no bucket just when the filter has nothing
to do in either branch: every statement in the branch of a parameter mentions that parameter.
-/

set_option autoImplicit false

namespace MonoTap.Callback

/-! ### Other forms of a guard -/

/-- The opposite test. -/
def NullCheck.opposite : NullCheck → NullCheck
  | .isNull => .notNull
  | .notNull => .isNull

/-- The parameter that a binding is not. -/
def Parameters.other (p : Parameters) (b : Binding) : Binding :=
  if b.same p.value then p.error else p.value

theorem Parameters.same_other {p : Parameters} (distinct : p.value.id ≠ p.error.id) (b : Binding) :
    (p.other b).same p.value = !b.same p.value := by
  rw [Parameters.other]
  cases value : b.same p.value with
  | true => exact beq_false_of_ne distinct.symm
  | false => exact beq_self_eq_true p.value.id

namespace Guard

/-- The opposite test of the other parameter, with the same branches. -/
def transposed (g : Guard) (p : Parameters) : Guard :=
  { g with subject := p.other g.subject, check := g.check.opposite }

/-- The opposite test, with the branches exchanged. -/
def inverted (g : Guard) : Guard :=
  { g with check := g.check.opposite, thenBranch := g.elseBranch, elseBranch := g.thenBranch }

/-- The branch that runs when the value is present or the error absent. -/
def valueBranch (g : Guard) (p : Parameters) : List Int :=
  match g.subject.same p.value, g.check with
  | true, .notNull | false, .isNull => g.thenBranch
  | true, .isNull | false, .notNull => g.elseBranch

/-- The branch that runs when the error is present or the value absent. -/
def errorBranch (g : Guard) (p : Parameters) : List Int :=
  match g.subject.same p.value, g.check with
  | true, .notNull | false, .isNull => g.elseBranch
  | true, .isNull | false, .notNull => g.thenBranch

theorem targets_transposed (g : Guard) {p : Parameters} (distinct : p.value.id ≠ p.error.id) :
    (g.transposed p).targets p = g.targets p := by
  have flips := Parameters.same_other distinct g.subject
  cases check : g.check <;> cases value : g.subject.same p.value <;>
    simp [targets, transposed, NullCheck.opposite, flips, check, value]

theorem inverted_inverted (g : Guard) : g.inverted.inverted = g := by
  obtain ⟨subject, check, thenBranch, elseBranch⟩ := g
  cases check <;> rfl

/-- An inverted guard fills the same two buckets in the other order. -/
theorem targets_inverted (g : Guard) (p : Parameters) :
    (g.inverted.targets p).thenBucket = (g.targets p).elseBucket ∧
      (g.inverted.targets p).elseBucket = (g.targets p).thenBucket := by
  cases check : g.check <;> cases subject : g.subject.same p.value <;>
    simp [targets, inverted, NullCheck.opposite, check, subject]

theorem targets_distinct (g : Guard) (p : Parameters) :
    (g.targets p).thenBucket ≠ (g.targets p).elseBucket ∧
      (g.targets p).thenBucket ≠ .termination ∧ (g.targets p).elseBucket ≠ .termination := by
  rw [targets]
  split <;> simp

/-- The parameter of each branch is the one that the branch is filtered by, here or in the inverted
guard. -/
theorem branches_mention_iff (g : Guard) (p : Parameters) (mentions : Binding → Int → Prop) :
    ((∀ j ∈ g.valueBranch p, mentions p.value j) ∧ ∀ j ∈ g.errorBranch p, mentions p.error j) ↔
      (∀ j ∈ g.thenBranch, mentions (g.targets p).parameter j) ∧
        ∀ j ∈ g.elseBranch, mentions (g.inverted.targets p).parameter j := by
  cases check : g.check <;> cases subject : g.subject.same p.value <;>
    simp [valueBranch, errorBranch, targets, inverted, NullCheck.opposite, check, subject, and_comm]

end Guard

/-! ### Replacing a guard -/

namespace Arena

/-- The place in the list of statements that a position means. -/
def index (a : Arena) (position : Int) : Nat :=
  if 0 ≤ position then position.toNat else (a.size + position).toNat

/-- The arena with another test in the statement at a position. -/
def withGuard (a : Arena) (position : Int) (g : Guard) : Arena :=
  ⟨a.statements.modify (a.index position) fun s => { s with guard := some g }⟩

/-- Whether the statement at a position mentions a binding. -/
def usesAt (a : Arena) (b : Binding) (position : Int) : Bool :=
  (a.get? position).any (·.uses b)

theorem getElem?_index {a : Arena} {i : Int} {s : Statement} (h : a.get? i = some s) :
    a.statements[a.index i]? = some s := by
  unfold get? at h
  unfold index
  split at h
  · rename_i nonneg
    rw [if_pos nonneg]
    exact h
  · rename_i negative
    rw [if_neg negative]
    split at h
    · exact h
    · cases h

theorem get?_withGuard (a : Arena) (i j : Int) (g : Guard) :
    (a.withGuard i g).get? j = (a.get? j).map fun s =>
      if a.index i = a.index j then { s with guard := some g } else s := by
  have size : (a.withGuard i g).size = a.size := List.length_modify ..
  unfold get?
  rw [size]
  split
  · rename_i nonneg
    have here : a.index j = j.toNat := if_pos nonneg
    rw [here]
    exact List.getElem?_modify ..
  · rename_i negative
    split
    · have here : a.index j = (a.size + j).toNat := if_neg negative
      rw [here]
      exact List.getElem?_modify ..
    · rfl

/-- Two arenas alike but for one test: where the first has `g` the second may have `h`. -/
structure Exchanged (a b : Arena) (g h : Guard) : Prop where
  references : ∀ j, (b.get? j).map Statement.references = (a.get? j).map Statement.references
  guard : ∀ j, b.guardAt? j = a.guardAt? j ∨ a.guardAt? j = some g ∧ b.guardAt? j = some h

theorem Exchanged.symm {a b : Arena} {g h : Guard} (e : a.Exchanged b g h) :
    b.Exchanged a h g := by
  constructor
  · intro j
    exact (e.references j).symm
  · intro j
    exact (e.guard j).imp Eq.symm And.symm

theorem exchanged_withGuard {a : Arena} {i : Int} {g : Guard} (holds : a.guardAt? i = some g)
    (h : Guard) : a.Exchanged (a.withGuard i h) g h := by
  obtain ⟨s, hs, test⟩ := Option.bind_eq_some_iff.1 holds
  have kind : s.kind = .guard := by
    unfold Statement.guard? at test
    split at test
    · cases test
    · assumption
  constructor
  · intro j
    rw [get?_withGuard, Option.map_map]
    congr 1
    funext t
    simp only [Function.comp_apply]
    split <;> rfl
  · intro j
    rw [guardAt?, guardAt?, get?_withGuard]
    cases hj : a.get? j with
    | none => exact Or.inl rfl
    | some t =>
      by_cases here : a.index i = a.index j
      · have same : t = s := by
          have first := getElem?_index hs
          have second := getElem?_index hj
          rw [← here, first] at second
          exact (Option.some.inj second).symm
        right
        simp [here, same, test]
        simp [Statement.guard?, kind]
      · left
        simp [here]

theorem guardAt?_withGuard {a : Arena} {i : Int} {g : Guard} (holds : a.guardAt? i = some g)
    (h : Guard) : (a.withGuard i h).guardAt? i = some h := by
  obtain ⟨s, hs, test⟩ := Option.bind_eq_some_iff.1 holds
  unfold Statement.guard? at test
  split at test
  · cases test
  · rename_i kind
    simp [guardAt?, get?_withGuard, hs, Statement.guard?, kind]

end Arena

/-! ### What a position gives rise to -/

section

variable {p : Parameters} {a b : Arena} {g h : Guard} {body : List Int} {i j : Int}

theorem assign_of_get? {s : Statement} (hs : a.get? i = some s) :
    assign p a i = match a.guardAt? i with
      | some g => if p.contains g.subject then g.split p a else .ok [(p.bucketOf s, i)]
      | none => .ok [(p.bucketOf s, i)] := by
  rw [assign, Arena.get_eq_ok_iff.2 hs, Arena.guardAt?, hs]
  rfl

theorem assign_of_absent (absent : a.get? i = none) : assign p a i = .error ⟨i⟩ := by
  rw [assign, Arena.get, absent]
  rfl

theorem bucketOf_congr {s t : Statement} (same : t.references = s.references) :
    p.bucketOf t = p.bucketOf s := by
  simp [Parameters.bucketOf, Statement.uses, same]

theorem usesAt_congr (e : a.Exchanged b g h) (x : Binding) (j : Int) :
    b.usesAt x j = a.usesAt x j := by
  have same := e.references j
  unfold Arena.usesAt
  cases ha : a.get? j <;> cases hb : b.get? j <;> simp_all [Statement.uses]

/-- The assignment of a statement in the first branch of a guard. -/
def Guard.assignFirst (g : Guard) (p : Parameters) (a : Arena) (i : Int) :
    Except NoStatement (Bucket × Int) := do
  let s ← a.get i
  return (if s.uses (g.targets p).parameter then (g.targets p).thenBucket else .termination, i)

theorem Guard.split_eq (g : Guard) (p : Parameters) (a : Arena) :
    g.split p a = do
      return (← g.thenBranch.mapM (g.assignFirst p a)) ++
        g.elseBranch.map ((g.targets p).elseBucket, ·) :=
  rfl

theorem Guard.split_congr (e : a.Exchanged b g h) (k : Guard) : k.split p b = k.split p a := by
  have each : k.assignFirst p b = k.assignFirst p a := by
    funext j
    have same := e.references j
    unfold Guard.assignFirst Arena.get
    cases ha : a.get? j with
    | none =>
      have absent : b.get? j = none := by simpa [ha] using same
      rw [absent]
    | some s =>
      obtain ⟨t, hb, references⟩ : ∃ t, b.get? j = some t ∧ t.references = s.references := by
        simpa [ha] using same
      have uses : t.uses (k.targets p).parameter = s.uses (k.targets p).parameter := by
        simp only [Statement.uses, references]
      rw [hb]
      show Except.ok _ = Except.ok _
      rw [uses]
  rw [Guard.split_eq, Guard.split_eq, each]

theorem assign_congr (e : a.Exchanged b g h) (alike : b.guardAt? j = a.guardAt? j) :
    assign p b j = assign p a j := by
  have same := e.references j
  cases ha : a.get? j with
  | none =>
    have absent : b.get? j = none := by simpa [ha] using same
    rw [assign_of_absent ha, assign_of_absent absent]
  | some s =>
    obtain ⟨t, hb, references⟩ : ∃ t, b.get? j = some t ∧ t.references = s.references := by
      simpa [ha] using same
    rw [assign_of_get? ha, assign_of_get? hb, alike, bucketOf_congr references]
    split
    · rw [Guard.split_congr e]
    · rfl

theorem isSome_of_usesAt {x : Binding} (used : a.usesAt x j = true) : (a.get? j).isSome := by
  unfold Arena.usesAt at used
  cases found : a.get? j with
  | none => simp [found] at used
  | some s => rfl

/-- Every step of a traversal that succeeds succeeds. -/
theorem forall_of_mapM {ε α β : Type} {f : α → Except ε β} {l : List α} {m : List β}
    (done : l.mapM f = .ok m) : ∀ x ∈ l, ∃ y, f x = .ok y := by
  induction l generalizing m with
  | nil => simp
  | cons x l ih =>
    rw [List.mapM_cons] at done
    cases first : f x with
    | error e =>
      rw [first] at done
      cases done
    | ok y =>
      rw [first] at done
      cases more : l.mapM f with
      | error e =>
        rw [more] at done
        cases done
      | ok ys =>
        intro z hz
        rcases List.mem_cons.1 hz with rfl | hz
        · exact ⟨y, first⟩
        · exact ih more z hz

/-- The statements of a guard can be assigned if those of its first branch exist. -/
theorem Guard.exists_of_split {l : List (Bucket × Int)} (done : g.split p a = .ok l) :
    ∀ j ∈ g.thenBranch, (a.get? j).isSome := by
  rw [Guard.split_eq] at done
  cases all : g.thenBranch.mapM (g.assignFirst p a) with
  | error e =>
    rw [all] at done
    cases done
  | ok first =>
    intro j hj
    obtain ⟨l, hl⟩ := forall_of_mapM all j hj
    cases found : a.get? j with
    | some s => rfl
    | none =>
      rw [Guard.assignFirst, Arena.get, found] at hl
      cases hl

/-- What a position is assigned is told by `assignedAt`. -/
theorem eq_assignedAt {l : List (Bucket × Int)} (done : assign p a i = .ok l) :
    assign p a i = .ok (assignedAt p a i) := by
  cases hs : a.get? i with
  | none =>
    rw [assign_of_absent hs] at done
    cases done
  | some s =>
    have bucketAt : p.bucketAt a i = p.bucketOf s := by rw [Parameters.bucketAt, hs]; rfl
    rw [assign_of_get? hs] at done ⊢
    unfold assignedAt
    cases test : a.guardAt? i with
    | none => simp only [bucketAt]
    | some g =>
      rw [test] at done
      dsimp only at done ⊢
      split
      · rename_i on
        rw [if_pos on] at done
        exact Guard.split_eq_ok (Guard.exists_of_split done)
      · rw [bucketAt]

/-- A body can be classified just when each of its positions can be assigned. -/
theorem classify_eq_ok_iff {bs : Buckets} :
    classify p a body = .ok bs ↔
      (∀ j ∈ body, assign p a j = .ok (assignedAt p a j)) ∧
        bs = .ofAssignments (assigned p a body) := by
  have whole (each : ∀ j ∈ body, assign p a j = .ok (assignedAt p a j)) :
      classify p a body = .ok (.ofAssignments (assigned p a body)) := by
    rw [classify, assignments, mapM_eq_ok_map each, assigned, List.flatMap_def]
    rfl
  constructor
  · intro done
    have each : ∀ j ∈ body, assign p a j = .ok (assignedAt p a j) := by
      unfold classify assignments at done
      cases all : body.mapM (assign p a) with
      | error e =>
        rw [all] at done
        cases done
      | ok ls =>
        intro j hj
        obtain ⟨l, hl⟩ := forall_of_mapM all j hj
        exact eq_assignedAt hl
    refine ⟨each, ?_⟩
    rw [whole each] at done
    exact (Except.ok.inj done).symm
  · rintro ⟨each, rfl⟩
    exact whole each

/-! ### Bucket by bucket -/

/-- The leaves that a position adds to a bucket. -/
def dealtAt (p : Parameters) (a : Arena) (bucket : Bucket) (i : Int) : List Int :=
  ((assignedAt p a i).filter (·.1 = bucket)).map Prod.snd

theorem get_assigned (bucket : Bucket) :
    (Buckets.ofAssignments (assigned p a body)).get bucket = body.flatMap (dealtAt p a bucket) := by
  rw [Buckets.get_ofAssignments, assigned, List.filter_flatMap, List.map_flatMap]
  rfl

/-- The first branch of a guard goes to its bucket as far as it mentions the parameter. -/
theorem dealtAt_then (holds : a.guardAt? i = some g) (on : p.contains g.subject = true) :
    dealtAt p a (g.targets p).thenBucket i =
      g.thenBranch.filter (a.usesAt (g.targets p).parameter) := by
  obtain ⟨apart, notLast, _⟩ := g.targets_distinct p
  have others : (g.elseBranch.map ((g.targets p).elseBucket, ·)).filter
      (fun x : Bucket × Int => x.1 = (g.targets p).thenBucket) = [] := by
    simp [List.filter_eq_nil_iff, apart.symm]
  have test : (fun j => decide (g.bucketAt p a j = (g.targets p).thenBucket)) =
      a.usesAt (g.targets p).parameter := by
    funext j
    unfold Guard.bucketAt Arena.usesAt
    split <;> simp_all [notLast.symm]
  simp only [dealtAt, assignedAt, holds, on, ↓reduceIte, List.filter_append, others,
    List.append_nil, List.filter_map, List.map_map, Function.comp_def, List.map_id', test]

/-- The second branch of a guard goes to its bucket as a whole. -/
theorem dealtAt_else (holds : a.guardAt? i = some g) (on : p.contains g.subject = true) :
    dealtAt p a (g.targets p).elseBucket i = g.elseBranch := by
  obtain ⟨apart, _, notLast⟩ := g.targets_distinct p
  have firsts : (g.thenBranch.map (fun j => (g.bucketAt p a j, j))).filter
      (fun x : Bucket × Int => x.1 = (g.targets p).elseBucket) = [] := by
    rw [List.filter_eq_nil_iff]
    intro x hx
    obtain ⟨j, _, rfl⟩ := List.mem_map.1 hx
    unfold Guard.bucketAt
    split <;> simp [apart, notLast.symm]
  have all : g.elseBranch.filter (fun _ => true) = g.elseBranch := List.filter_eq_self.2 (by simp)
  simp only [dealtAt, assignedAt, holds, on, ↓reduceIte, List.filter_append, firsts,
    List.nil_append, List.filter_map, List.map_map, Function.comp_def, List.map_id', decide_true, all]

/-- What does not mention the parameter of the first branch goes to the end. -/
theorem dealtAt_termination (holds : a.guardAt? i = some g) (on : p.contains g.subject = true) :
    dealtAt p a .termination i =
      g.thenBranch.filter fun j => !a.usesAt (g.targets p).parameter j := by
  obtain ⟨_, notFirst, notSecond⟩ := g.targets_distinct p
  have others : (g.elseBranch.map ((g.targets p).elseBucket, ·)).filter
      (fun x : Bucket × Int => x.1 = .termination) = [] := by
    simp [List.filter_eq_nil_iff, notSecond]
  have test : (fun j => decide (g.bucketAt p a j = .termination)) =
      fun j => !a.usesAt (g.targets p).parameter j := by
    funext j
    unfold Guard.bucketAt Arena.usesAt
    split <;> simp_all
  simp only [dealtAt, assignedAt, holds, on, ↓reduceIte, List.filter_append, others,
    List.append_nil, List.filter_map, List.map_map, Function.comp_def, List.map_id', test]

theorem dealtAt_congr (e : a.Exchanged b g h) (alike : b.guardAt? j = a.guardAt? j)
    (bucket : Bucket) : dealtAt p b bucket j = dealtAt p a bucket j := by
  have bucketAt : p.bucketAt b j = p.bucketAt a j := by
    have same := e.references j
    unfold Parameters.bucketAt
    cases ha : a.get? j <;> cases hb : b.get? j <;>
      simp_all [Parameters.bucketOf, Statement.uses]
  have inBranch (k : Guard) : k.bucketAt p b = k.bucketAt p a := by
    funext i
    have uses := usesAt_congr e (k.targets p).parameter i
    unfold Arena.usesAt at uses
    rw [Guard.bucketAt, Guard.bucketAt, uses]
  simp only [dealtAt, assignedAt, alike, bucketAt, inBranch]

theorem sublist_flatMap {α β : Type} {f k : α → List β} {l : List α}
    (parts : ∀ x ∈ l, (f x).Sublist (k x)) : (l.flatMap f).Sublist (l.flatMap k) := by
  induction l with
  | nil => exact List.Sublist.refl _
  | cons x l ih =>
    simp only [List.flatMap_cons]
    apply List.Sublist.append
    · exact parts x List.mem_cons_self
    · exact ih fun y hy => parts y (List.mem_cons_of_mem _ hy)

/-- Lists of parts that are equal as wholes are equal part by part, where the parts of the one are
sublists of those of the other. -/
theorem eq_of_flatMap_eq {α β : Type} {f k : α → List β} {l : List α}
    (parts : ∀ x ∈ l, (f x).Sublist (k x)) (same : l.flatMap f = l.flatMap k) :
    ∀ x ∈ l, f x = k x := by
  induction l with
  | nil => simp
  | cons x l ih =>
    have here := parts x List.mem_cons_self
    have later : ∀ y ∈ l, (f y).Sublist (k y) := fun y hy => parts y (List.mem_cons_of_mem _ hy)
    have rest := (sublist_flatMap later).length_le
    have lengths := congrArg List.length same
    have short := here.length_le
    simp only [List.flatMap_cons, List.length_append] at lengths same
    obtain ⟨first, others⟩ := List.append_inj same (by omega)
    intro y hy
    rcases List.mem_cons.1 hy with rfl | hy
    · exact first
    · exact ih later others y hy

/-! ### Inverting a guard -/

/-- Every statement of the first branch mentions the parameter by which the branch is filtered, and
so does every statement of the second branch in the inverted guard. -/
def Guard.Settled (g : Guard) (p : Parameters) (a : Arena) : Prop :=
  (∀ j ∈ g.thenBranch, a.usesAt (g.targets p).parameter j = true) ∧
    ∀ j ∈ g.elseBranch, a.usesAt (g.inverted.targets p).parameter j = true

theorem Guard.Settled.inverted (e : a.Exchanged b g g.inverted) (settled : g.Settled p a) :
    g.inverted.Settled p b := by
  rw [Settled, g.inverted_inverted]
  simp only [usesAt_congr e]
  exact settled.symm

/-- The bucket of a branch holds as much or more where the guard is put so that this branch is the
second. -/
theorem dealtAt_sublist (e : a.Exchanged b g g.inverted) (on : p.contains g.subject = true) (j : Int) :
    (dealtAt p a (g.targets p).thenBucket j).Sublist (dealtAt p b (g.targets p).thenBucket j) := by
  rcases e.guard j with alike | ⟨here, there⟩
  · have same := dealtAt_congr (p := p) e alike (g.targets p).thenBucket
    exact same ▸ List.Sublist.refl _
  · have whole := dealtAt_else (p := p) there on
    rw [(g.targets_inverted p).2] at whole
    rw [dealtAt_then here on, whole]
    exact List.filter_sublist

/-- If inverting a guard changes no bucket, the filter has nothing to do in the first branch. -/
theorem uses_of_classify_eq (e : a.Exchanged b g g.inverted) (on : p.contains g.subject = true)
    (inBody : i ∈ body) (here : a.guardAt? i = some g) (there : b.guardAt? i = some g.inverted)
    (same : Buckets.ofAssignments (assigned p a body) = .ofAssignments (assigned p b body)) :
    ∀ j ∈ g.thenBranch, a.usesAt (g.targets p).parameter j = true := by
  have wholes := congrArg (Buckets.get · (g.targets p).thenBucket) same
  simp only [get_assigned] at wholes
  have part := eq_of_flatMap_eq (fun j _ => dealtAt_sublist e on j) wholes i inBody
  have whole := dealtAt_else (p := p) there on
  rw [(g.targets_inverted p).2] at whole
  rw [dealtAt_then here on, whole] at part
  exact List.filter_eq_self.1 part

/-- If the filter has nothing to do in either branch, a position has the same share of each bucket
before and after. -/
theorem dealtAt_settled (e : a.Exchanged b g g.inverted) (on : p.contains g.subject = true)
    (settled : g.Settled p a) (bucket : Bucket) (j : Int) :
    dealtAt p b bucket j = dealtAt p a bucket j := by
  rcases e.guard j with alike | ⟨here, there⟩
  · exact dealtAt_congr e alike bucket
  · have uses := usesAt_congr e (g.inverted.targets p).parameter
    have firstThere := dealtAt_then (p := p) there on
    have secondThere := dealtAt_else (p := p) there on
    have lastThere := dealtAt_termination (p := p) there on
    have all : g.thenBranch.filter (a.usesAt (g.targets p).parameter) = g.thenBranch :=
      List.filter_eq_self.2 settled.1
    have allInverted : g.elseBranch.filter (b.usesAt (g.inverted.targets p).parameter) =
        g.elseBranch :=
      List.filter_eq_self.2 fun k hk => (uses k).trans (settled.2 k hk)
    obtain ⟨thenBucket, elseBucket⟩ := g.targets_inverted p
    rw [thenBucket] at firstThere
    rw [elseBucket] at secondThere
    have covers : bucket = (g.targets p).thenBucket ∨ bucket = (g.targets p).elseBucket ∨
        bucket = .termination := by
      rw [Guard.targets]
      split <;> cases bucket <;> simp
    rcases covers with rfl | rfl | rfl
    · rw [secondThere, dealtAt_then here on, all]
      rfl
    · rw [firstThere, dealtAt_else here on]
      exact allInverted
    · have none : g.thenBranch.filter (fun j => !a.usesAt (g.targets p).parameter j) = [] := by
        rw [List.filter_eq_nil_iff]
        intro k hk
        simp [settled.1 k hk]
      have noneInverted : g.inverted.thenBranch.filter
          (fun j => !b.usesAt (g.inverted.targets p).parameter j) = [] := by
        rw [List.filter_eq_nil_iff]
        intro k hk
        simp [uses k, settled.2 k hk]
      rw [lastThere, dealtAt_termination here on, none, noneInverted]

theorem classify_settled (e : a.Exchanged b g g.inverted) (on : p.contains g.subject = true)
    (settled : g.Settled p a) {bs : Buckets} (done : classify p a body = .ok bs) :
    classify p b body = .ok bs := by
  obtain ⟨each, rfl⟩ := classify_eq_ok_iff.1 done
  rw [classify_eq_ok_iff]
  constructor
  · intro j hj
    rcases e.guard j with alike | ⟨here, there⟩
    · exact eq_assignedAt ((assign_congr e alike).trans (each j hj))
    · have present : ∀ k ∈ g.inverted.thenBranch, (b.get? k).isSome := by
        intro k hk
        apply isSome_of_usesAt (x := (g.inverted.targets p).parameter)
        rw [usesAt_congr e]
        exact settled.2 k hk
      have subject : p.contains g.inverted.subject = true := on
      obtain ⟨s, hs, _⟩ := Option.bind_eq_some_iff.1 there
      have opened := assign_of_get? (p := p) hs
      simp only [there, subject, ↓reduceIte, Guard.split_eq_ok present] at opened
      exact eq_assignedAt opened
  · apply Buckets.ext_get
    intro bucket
    rw [get_assigned, get_assigned]
    have same : dealtAt p a bucket = dealtAt p b bucket :=
      funext fun j => (dealtAt_settled e on settled bucket j).symm
    rw [same]

/-- Where a body can be classified with a guard or with the inverted one, the buckets are the same
just when every statement of either branch mentions the parameter of that branch. -/
theorem classify_inverted_iff (e : a.Exchanged b g g.inverted) (on : p.contains g.subject = true)
    (inBody : i ∈ body) (here : a.guardAt? i = some g) (there : b.guardAt? i = some g.inverted)
    {bs : Buckets} (done : classify p a body = .ok bs ∨ classify p b body = .ok bs) :
    classify p b body = classify p a body ↔ g.Settled p a := by
  have back : b.Exchanged a g.inverted g.inverted.inverted := by
    rw [g.inverted_inverted]
    exact e.symm
  constructor
  · intro same
    have both : classify p a body = .ok bs ∧ classify p b body = .ok bs := by
      rcases done with done | done
      · exact ⟨done, same.trans done⟩
      · exact ⟨same.symm.trans done, done⟩
    have buckets := (classify_eq_ok_iff.1 both.1).2.symm.trans (classify_eq_ok_iff.1 both.2).2
    constructor
    · exact uses_of_classify_eq e on inBody here there buckets
    · have again := uses_of_classify_eq (p := p) back on inBody there
        (here.trans (congrArg some g.inverted_inverted.symm)) buckets.symm
      intro j hj
      rw [← usesAt_congr e]
      exact again j hj
  · intro settled
    rcases done with done | done
    · rw [done]
      exact classify_settled e on settled done
    · rw [done]
      have other := classify_settled back on (settled.inverted e) done
      exact other.symm

end

/-- Putting a guard on a parameter as the opposite test of the other parameter leaves the result of
classification as it is. Inverting it, with the branches exchanged, leaves the buckets as they are if
and only if every statement of the branch of the value mentions the value and every statement of the
branch of the error mentions the error. -/
theorem classify_guard_symmetry (p : Parameters) (distinct : p.value.id ≠ p.error.id) (arena : Arena)
    (body : List Int) (i : Int) (inBody : i ∈ body) (g : Guard) (holds : arena.guardAt? i = some g)
    (on : p.contains g.subject = true) :
    classify p (arena.withGuard i (g.transposed p)) body = classify p arena body ∧
      ∀ bs, classify p arena body = .ok bs ∨
          classify p (arena.withGuard i g.inverted) body = .ok bs →
        (classify p (arena.withGuard i g.inverted) body = classify p arena body ↔
          (∀ j ∈ g.valueBranch p, arena.usesAt p.value j = true) ∧
            ∀ j ∈ g.errorBranch p, arena.usesAt p.error j = true) := by
  constructor
  · have e := Arena.exchanged_withGuard holds (g.transposed p)
    have targets := g.targets_transposed distinct
    have other : p.contains (g.transposed p).subject = true := by
      simp only [Guard.transposed, Parameters.other]
      split <;> simp [Parameters.contains, Binding.same]
    have each (j : Int) : assign p (arena.withGuard i (g.transposed p)) j = assign p arena j := by
      rcases e.guard j with alike | ⟨here, there⟩
      · exact assign_congr e alike
      · obtain ⟨s, hs, _⟩ := Option.bind_eq_some_iff.1 here
        obtain ⟨t, ht, _⟩ := Option.bind_eq_some_iff.1 there
        have split : (g.transposed p).split p arena = g.split p arena := by
          rw [Guard.split, targets]
          rfl
        rw [assign_of_get? hs, assign_of_get? ht, here, there]
        simp only [on, other, ↓reduceIte, Guard.split_congr e, split]
    have all : assign p (arena.withGuard i (g.transposed p)) = assign p arena := funext each
    rw [classify, classify, assignments, assignments, all]
  · intro bs done
    rw [g.branches_mention_iff p fun x j => arena.usesAt x j = true]
    exact classify_inverted_iff (Arena.exchanged_withGuard holds g.inverted) on inBody holds
      (Arena.guardAt?_withGuard holds g.inverted) done

/-- A guard whose first branch holds a statement that mentions nothing. -/
theorem classify_guard_symmetry_of_mixed :
    let p : Parameters := ⟨⟨1, "v", none⟩, ⟨2, "e", none⟩⟩
    let g : Guard := ⟨⟨1, "v", none⟩, .notNull, [1, 2], [3]⟩
    p.value.id ≠ p.error.id ∧ (0 : Int) ∈ [(4 : Int), 0] ∧ mixedArena.guardAt? 0 = some g ∧
      p.contains g.subject = true ∧
      classify p (mixedArena.withGuard 0 (g.transposed p)) [4, 0] = classify p mixedArena [4, 0] ∧
      classify p mixedArena [4, 0] = .ok ⟨[1], [4, 3], [2]⟩ ∧
      classify p (mixedArena.withGuard 0 g.inverted) [4, 0] ≠ classify p mixedArena [4, 0] := by
  intro p g
  have distinct : p.value.id ≠ p.error.id := by decide
  have inBody : (0 : Int) ∈ [(4 : Int), 0] := by decide
  have holds : mixedArena.guardAt? 0 = some g := by decide
  have on : p.contains g.subject = true := by decide
  have done : classify p mixedArena [4, 0] = .ok ⟨[1], [4, 3], [2]⟩ := by rfl
  obtain ⟨transposed, inverted⟩ :=
    classify_guard_symmetry p distinct mixedArena [4, 0] 0 inBody g holds on
  refine ⟨distinct, inBody, holds, on, transposed, done, ?_⟩
  rw [Ne, inverted _ (Or.inl done)]
  decide

end MonoTap.Callback

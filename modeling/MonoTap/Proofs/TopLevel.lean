import MonoTap.Proofs.Locality

/-!
# The top level

A compilation unit is read one construct after the other. Each closes the brackets that it opens and ends
with a semicolon or a brace, and declarations of imports and of the package are told by their first token.
So a construct that stands before such a declaration is read in the same way whatever comes after the
first token of that declaration, and the declaration itself whatever comes after it.
-/

set_option autoImplicit false

namespace MonoTap.Java

namespace Rule

variable {S : Type} {grammar : S → Rule S} {rule : Rule S} {op nodes : List Node} {ts : List Token}

/-! ### The tokens that a rule takes -/

/-- The brackets that a rule opens, less those that it closes, if they are always as many. Symbols close
all that they open. -/
def balance : Rule S → Option Int
  | .token texts => some (texts.map bracketsOf).sum
  | .leaf text _ => some (bracketsOf text)
  | .seq a b => (balance a).bind fun m => (balance b).map (m + ·)
  | .alt a b => (balance a).bind fun m => (balance b).bind fun n => if m = n then some m else none
  | .many r => (balance r).bind fun m => if m = 0 then some 0 else none
  | .node _ r | .field _ r => balance r
  | .chain base suffix =>
    (balance base).bind fun m => (balance suffix).bind fun n => if n = 0 then some m else none
  | _ => some 0

/-- Whether whatever a rule takes is empty or ends like a construct at the top level. -/
def closes (ends : S → Bool) : Rule S → Bool
  | .token texts => texts.getLast?.all isEnd
  | .leaf text _ => isEnd text
  | .name _ | .literal => false
  | .ref s => ends s
  | .seq a b => closes ends b && (consumes b || closes ends a)
  | .alt a b | .chain a b => closes ends a && closes ends b
  | .many r | .node _ r | .field _ r => closes ends r
  | _ => true

/-- Whether whatever a rule takes is empty or begins with one of some texts. -/
def begins (starts : S → Bool) (texts : List String) : Rule S → Bool
  | .token words => words.head?.all texts.contains
  | .leaf text _ => texts.contains text
  | .name _ | .literal => false
  | .ref s => starts s
  | .seq a b => begins starts texts a && (consumes a || begins starts texts b)
  | .alt a b => begins starts texts a && begins starts texts b
  | .many r | .node _ r | .field _ r => begins starts texts r
  | .chain base _ => begins starts texts base && consumes base
  | _ => true

theorem brackets_of_adjacent {start stop : Nat} {texts : List String} (h : Adjacent start texts ts stop) :
    brackets ts = (texts.map bracketsOf).sum := by
  induction h with
  | nil => rfl
  | cons joined bare reads more ih =>
    rw [brackets_cons, ih, Token.brackets_of_reads reads, List.map_cons, List.sum_cons]

theorem Derives.brackets_eq (each : ∀ s, (grammar s).balance = some 0) {n : Int}
    (h : Derives grammar rule op ts nodes) (plain : ∀ t ∈ ts, t.Plain) (balanced : rule.balance = some n) :
    brackets ts = n := by
  induction h generalizing n with
  | empty | left | «unless» =>
    cases balanced
    rfl
  | token reads =>
    cases balanced
    rw [brackets_cons, Token.brackets_of_reads reads]
    simp
  | glued reads more =>
    cases balanced
    rw [brackets_cons, Token.brackets_of_reads reads, brackets_of_adjacent more, List.map_cons,
      List.map_cons, List.map_cons, List.sum_cons, List.sum_cons, List.sum_cons]
  | leaf reads =>
    cases balanced
    rw [brackets_cons, Token.brackets_of_reads reads, brackets_nil, Int.add_zero]
  | name isName =>
    cases balanced
    rw [brackets_cons, Token.brackets_eq_zero ((plain _ List.mem_cons_self).not_reads isName)]
    rfl
  | literal is =>
    cases balanced
    rw [brackets_cons, Token.brackets_eq_zero fun text _ => Token.not_reads_of_literal is text]
    rfl
  | @ref op nodes s ts inner ih =>
    cases balanced
    exact ih plain (each s)
  | seq left right ihLeft ihRight =>
    obtain ⟨m, first, rest⟩ := Option.bind_eq_some_iff.1 balanced
    obtain ⟨k, second, rfl⟩ := Option.map_eq_some_iff.1 rest
    rw [brackets_append, ihLeft (fun t ht => plain t (List.mem_append_left _ ht)) first,
      ihRight (fun t ht => plain t (List.mem_append_right _ ht)) second]
  | altLeft left ih =>
    obtain ⟨m, first, rest⟩ := Option.bind_eq_some_iff.1 balanced
    obtain ⟨k, second, same⟩ := Option.bind_eq_some_iff.1 rest
    obtain ⟨_, found⟩ := Option.ite_none_right_eq_some.1 same
    cases found
    exact ih plain first
  | altRight right ih =>
    obtain ⟨m, first, rest⟩ := Option.bind_eq_some_iff.1 balanced
    obtain ⟨k, second, same⟩ := Option.bind_eq_some_iff.1 rest
    obtain ⟨equal, found⟩ := Option.ite_none_right_eq_some.1 same
    cases found
    exact ih plain (second.trans (congrArg some equal.symm))
  | manyNil =>
    obtain ⟨m, _, same⟩ := Option.bind_eq_some_iff.1 balanced
    obtain ⟨_, same⟩ := Option.ite_none_right_eq_some.1 same
    cases same
    rfl
  | manyCons head tail ihHead ihTail =>
    obtain ⟨m, first, same⟩ := Option.bind_eq_some_iff.1 balanced
    obtain ⟨rfl, same⟩ := Option.ite_none_right_eq_some.1 same
    rw [brackets_append, ihHead (fun t ht => plain t (List.mem_append_left _ ht)) first,
      ihTail (fun t ht => plain t (List.mem_append_right _ ht)) balanced, Int.zero_add]
  | node inner ih => exact ih plain balanced
  | field inner ih => exact ih plain balanced
  | chainBase inner ih =>
    obtain ⟨m, first, rest⟩ := Option.bind_eq_some_iff.1 balanced
    obtain ⟨k, _, same⟩ := Option.bind_eq_some_iff.1 rest
    obtain ⟨_, same⟩ := Option.ite_none_right_eq_some.1 same
    cases same
    exact ih plain first
  | @chainMore base suffix op nodes longer result ts us vs inner step more ihInner ihStep ihMore =>
    obtain ⟨m, first, rest⟩ := Option.bind_eq_some_iff.1 balanced
    obtain ⟨k, second, same⟩ := Option.bind_eq_some_iff.1 rest
    obtain ⟨rfl, same⟩ := Option.ite_none_right_eq_some.1 same
    cases same
    have further : (Rule.chain .left suffix).balance = some 0 := by
      simp only [balance, second]
      rfl
    rw [brackets_append, brackets_append,
      ihInner (fun t ht => plain t (List.mem_append_left _ ht)) first,
      ihStep (fun t ht => plain t (List.mem_append_right _ (List.mem_append_left _ ht))) second,
      ihMore (fun t ht => plain t (List.mem_append_right _ (List.mem_append_right _ ht))) further,
      Int.add_zero, Int.add_zero]

theorem ends_of_adjacent {start stop : Nat} {texts : List String} (h : Adjacent start texts ts stop)
    {t : Token} (last : ts.getLast? = some t) : ∃ text, texts.getLast? = some text ∧ t.reads text = true := by
  induction h with
  | nil => cases last
  | @cons start stop text texts u us joined bare reads more ih =>
    rw [List.getLast?_cons] at last ⊢
    cases others : us.getLast? with
    | none =>
      cases more with
      | nil =>
        cases last
        exact ⟨text, rfl, reads⟩
      | cons => rw [List.getLast?_cons] at others; cases others
    | some v =>
      rw [others] at last
      cases last
      obtain ⟨word, final, reads⟩ := ih others
      exact ⟨word, by rw [final]; rfl, reads⟩

/-- The last of the tokens that a rule takes, if there are any. -/
theorem Derives.ends {ends : S → Bool} (takes : ∀ s, (grammar s).consumes = true)
    (sure : ∀ s, ends s = true → (grammar s).closes ends = true) (h : Derives grammar rule op ts nodes)
    (closes : rule.closes ends = true) : ∀ t, ts.getLast? = some t → t.ends = true := by
  induction h with
  | empty | left | «unless» | manyNil => exact fun t ht => by cases ht
  | token reads =>
    intro t ht
    cases ht
    exact (Token.ends_of_reads reads).trans closes
  | glued reads more =>
    intro t ht
    cases more with
    | cons joined bare readsNext more =>
      rw [List.getLast?_cons_cons] at ht
      obtain ⟨word, last, readsLast⟩ := ends_of_adjacent (.cons joined bare readsNext more) ht
      rw [Rule.closes, List.getLast?_cons_cons, last] at closes
      exact (Token.ends_of_reads readsLast).trans closes
  | leaf reads =>
    intro t ht
    cases ht
    exact (Token.ends_of_reads reads).trans closes
  | name | literal => cases closes
  | @ref op nodes s ts inner ih => exact ih (sure s closes)
  | seq left right ihLeft ihRight =>
    rw [Rule.closes, Bool.and_eq_true, Bool.or_eq_true] at closes
    intro t ht
    rw [List.getLast?_append] at ht
    rcases Option.or_eq_some_iff.1 ht with last | ⟨none, last⟩
    · exact ihRight closes.1 t last
    · rcases closes.2 with takesRight | closesLeft
      · exact (right.ne_nil takes takesRight (List.getLast?_eq_none_iff.1 none)).elim
      · exact ihLeft closesLeft t last
  | altLeft left ih =>
    rw [Rule.closes, Bool.and_eq_true] at closes
    exact ih closes.1
  | altRight right ih =>
    rw [Rule.closes, Bool.and_eq_true] at closes
    exact ih closes.2
  | manyCons head tail ihHead ihTail =>
    intro t ht
    rw [List.getLast?_append] at ht
    rcases Option.or_eq_some_iff.1 ht with last | ⟨_, last⟩
    · exact ihTail closes t last
    · exact ihHead closes t last
  | node inner ih => exact ih closes
  | field inner ih => exact ih closes
  | chainBase inner ih =>
    rw [Rule.closes, Bool.and_eq_true] at closes
    exact ih closes.1
  | chainMore inner step more ihInner ihStep ihMore =>
    rw [Rule.closes, Bool.and_eq_true] at closes
    have further := ihMore (by simp only [Rule.closes, closes.2]; rfl)
    intro t ht
    rw [List.getLast?_append, List.getLast?_append] at ht
    rcases Option.or_eq_some_iff.1 ht with last | ⟨_, last⟩
    · rcases Option.or_eq_some_iff.1 last with last | ⟨_, last⟩
      · exact further t last
      · exact ihStep closes.2 t last
    · exact ihInner closes.1 t last

/-- The first of the tokens that a rule takes, if there are any. -/
theorem Derives.begins {starts : S → Bool} {texts : List String} (takes : ∀ s, (grammar s).consumes = true)
    (sure : ∀ s, starts s = true → (grammar s).begins starts texts = true)
    (h : Derives grammar rule op ts nodes) (begins : rule.begins starts texts = true) :
    ∀ t, ts.head? = some t → ∃ text ∈ texts, t.reads text = true := by
  induction h with
  | empty | left | «unless» | manyNil => exact fun t ht => by cases ht
  | token reads =>
    intro t ht
    cases ht
    exact ⟨_, List.contains_iff_mem.1 begins, reads⟩
  | glued reads more =>
    intro t ht
    cases ht
    exact ⟨_, List.contains_iff_mem.1 begins, reads⟩
  | leaf reads =>
    intro t ht
    cases ht
    exact ⟨_, List.contains_iff_mem.1 begins, reads⟩
  | name | literal => cases begins
  | @ref op nodes s ts inner ih => exact ih (sure s begins)
  | seq left right ihLeft ihRight =>
    rw [Rule.begins, Bool.and_eq_true, Bool.or_eq_true] at begins
    intro t ht
    rw [List.head?_append] at ht
    rcases Option.or_eq_some_iff.1 ht with first | ⟨none, first⟩
    · exact ihLeft begins.1 t first
    · rcases begins.2 with takesLeft | beginsRight
      · exact (left.ne_nil takes takesLeft (List.head?_eq_none_iff.1 none)).elim
      · exact ihRight beginsRight t first
  | altLeft left ih =>
    rw [Rule.begins, Bool.and_eq_true] at begins
    exact ih begins.1
  | altRight right ih =>
    rw [Rule.begins, Bool.and_eq_true] at begins
    exact ih begins.2
  | manyCons head tail ihHead ihTail =>
    intro t ht
    rw [List.head?_append] at ht
    rcases Option.or_eq_some_iff.1 ht with first | ⟨_, first⟩
    · exact ihHead begins t first
    · exact ihTail begins t first
  | node inner ih => exact ih begins
  | field inner ih => exact ih begins
  | chainBase inner ih =>
    rw [Rule.begins, Bool.and_eq_true] at begins
    exact ih begins.1
  | chainMore inner step more ihInner ihStep ihMore =>
    rw [Rule.begins, Bool.and_eq_true] at begins
    intro t ht
    rw [List.head?_append] at ht
    rcases Option.or_eq_some_iff.1 ht with first | ⟨none, _⟩
    · exact ihInner begins.1 t first
    · exact (inner.ne_nil takes begins.2 (List.head?_eq_none_iff.1 none)).elim

/-! ### Choices -/

/-- The rules among which a rule chooses, in order. -/
def choices : Rule S → List (Rule S)
  | .alt a b => choices a ++ choices b
  | r => [r]

theorem Reads.exists_choice {r : Rule S} {p : List Node × List Token}
    (h : Reads grammar r op ts (some p)) : ∃ q ∈ r.choices, Reads grammar q op ts (some p) := by
  induction r with
  | alt a b ihLeft ihRight =>
    cases h with
    | altFirst first =>
      obtain ⟨q, hq, reads⟩ := ihLeft first
      exact ⟨q, List.mem_append_left _ hq, reads⟩
    | altSecond first second =>
      obtain ⟨q, hq, reads⟩ := ihRight second
      exact ⟨q, List.mem_append_right _ hq, reads⟩
  | _ => exact ⟨_, List.mem_singleton_self _, h⟩

theorem reads_none_of_choices {r : Rule S} (h : ∀ q ∈ r.choices, Reads grammar q op ts none) :
    Reads grammar r op ts none := by
  induction r with
  | alt a b ihLeft ihRight =>
    exact .altSecond (ihLeft fun q hq => h q (List.mem_append_left _ hq))
      (ihRight fun q hq => h q (List.mem_append_right _ hq))
  | _ => exact h _ (List.mem_singleton_self _)

/-- A choice is read where those before it do not match. -/
theorem reads_of_choice {r q : Rule S} {front back : List (Rule S)} {p : List Node × List Token}
    (split : r.choices = front ++ q :: back) (fails : ∀ q ∈ front, Reads grammar q op ts none)
    (h : Reads grammar q op ts (some p)) : Reads grammar r op ts (some p) := by
  induction r generalizing front back with
  | alt a b ihLeft ihRight =>
    rcases List.append_eq_append_iff.1 split with ⟨middle, rfl, right⟩ | ⟨middle, left, right⟩
    · refine .altSecond (reads_none_of_choices fun q hq => fails q (List.mem_append_left _ hq)) ?_
      exact ihRight right fun q hq => fails q (List.mem_append_right _ hq)
    · cases middle with
      | nil =>
        rw [List.append_nil] at left
        refine .altSecond (reads_none_of_choices (left ▸ fails)) ?_
        have first : b.choices = [] ++ q :: back := right.symm
        exact ihRight first fun q hq => by cases hq
      | cons q' middle =>
        rw [List.cons_append, List.cons.injEq] at right
        obtain ⟨rfl, _⟩ := right
        exact .altFirst (ihLeft left fails)
  | _ =>
    have single := congrArg List.length split
    rw [List.length_append, List.length_cons, choices, List.length_singleton] at single
    · cases front with
      | nil =>
        cases List.head_eq_of_cons_eq split
        exact h
      | cons => rw [List.length_cons] at single; omega
    all_goals exact fun _ _ same => by cases same

/-- Whether a rule may give a node of some kind. -/
def gives (known : S → Bool) (k : Kind) : Rule S → Bool
  | .node k' _ => k' == k
  | .token _ => false
  | .ref s => known s
  | _ => true

theorem not_is_of_isExtra {n : Node} {k : Kind} (plain : k.isExtra = false) (h : n.isExtra = true) :
    n.is k = false := by
  rw [← Bool.not_eq_true]
  intro is
  rw [Node.is, beq_iff_eq] at is
  cases n with
  | mk label role start stop children =>
    cases is
    rw [Node.isExtra_kind, plain] at h
    cases h

theorem Derives.not_is {known : S → Bool} {k : Kind} (plain : k.isExtra = false) (present : k ≠ .missing)
    (sure : ∀ s, known s = false → (grammar s).gives known k = false)
    (h : Derives grammar rule op ts nodes) (proper : ∀ t ∈ ts, t.Proper) (other : rule.gives known k = false) :
    ∀ n ∈ nodes, n.is k = false := by
  have extras {t : Token} (ht : t.Proper) : ∀ n ∈ t.extras, n.is k = false :=
    fun n hn => not_is_of_isExtra plain (ht.loose n hn).extra
  induction h with
  | @token op text t reads =>
    intro n hn
    rcases List.mem_append.1 hn with hn | hn
    · exact extras (proper _ List.mem_cons_self) n hn
    · rw [List.mem_singleton.1 hn, Node.is, Node.label]
      split
      · exact beq_false_of_ne fun same => present (by cases same; rfl)
      · rfl
  | glued reads more =>
    intro n hn
    rcases List.mem_append.1 hn with hn | hn
    · exact extras (proper _ List.mem_cons_self) n hn
    · rw [List.mem_singleton.1 hn]
      rfl
  | ref inner ih => exact ih proper (sure _ other)
  | @node r k' op nodes ts inner ih =>
    rw [gives, beq_eq_false_iff_ne] at other
    rcases Node.wrap_cases k' nodes with ⟨all, same⟩ | ⟨outside, first, others, last, _, all, _, _, same⟩
    · rw [same]
      exact fun n hn => not_is_of_isExtra plain (all n hn)
    · rw [same]
      intro n hn
      rcases List.mem_append.1 hn with hn | hn
      · exact not_is_of_isExtra plain (all n hn)
      · rw [List.mem_singleton.1 hn]
        exact beq_false_of_ne fun same => other (by cases same; rfl)
  | _ => cases other

/-- What does not depend on the tokens that come after does not match where there are none before them. -/
theorem reads_none_of_trace {room : S → Nat} {ends : S → Bool} {c : Scope S} {s' : Stand}
    (enters : Enters grammar room) (inner : Scope.inner.Fits grammar ends) (fits : c.Fits grammar ends)
    (traced : rule.trace ends c ⟨0, false⟩ = some s') (consumes : rule.consumes = true)
    (open' : c.edge ≠ .inside) (after : c.edge.Admits ts) : Reads grammar rule op ts none := by
  have reads : Reads grammar rule op ts (read grammar (500 * ts.length + entry room rule) rule op
      ⟨0, ts⟩).reading := reads_of_read (i := ⟨0, ts⟩) enters (Nat.le_refl _)
  generalize (read grammar (500 * ts.length + entry room rule) rule op ⟨0, ts⟩).reading = out at reads
  have empty : Stand.Holds ⟨0, false⟩ c.edge [] := by
    refine ⟨fun t ht => (by cases ht), fun t ht => (by cases ht), ?_, fun more => by cases more⟩
    cases edge : c.edge with
    | inside => exact (open' edge).elim
    | before | anywhere => exact Int.le_refl 0
  have whole : Reads grammar rule op ([] ++ ts) out := reads
  obtain ⟨out', _, alike⟩ := Reads.alike inner fits whole traced empty after after
  generalize whole : out = result at alike
  cases alike with
  | none => exact whole ▸ reads
  | some nodes reached =>
    obtain ⟨front, nothing, _, _⟩ := reached
    obtain ⟨rfl, rfl⟩ := List.append_eq_nil_iff.1 nothing.symm
    subst whole
    obtain ⟨us, split, derives⟩ := reads.derives enters
    have none : us = [] := List.self_eq_append_left.1 split
    exact (derives.ne_nil enters.takes consumes none).elim

end Rule

/-! ### Constructs of a compilation unit -/

namespace Grammar

/-- The symbols that may end like a construct at the top level. -/
def mayEnd : Symbol → Bool
  | .type | .plainType | .annotationUse | .recordPattern => false
  | _ => true

/-- The symbols that surely end like one. -/
def surelyEnds : Symbol → Bool
  | .block | .statement | .typeDeclaration | .classBody => true
  | _ => false

/-- How a declaration of an import or of the package begins. -/
def declarationMarks : List String :=
  ["import", "package", "@"]

/-- Before a declaration of an import or of the package. -/
def beforeDeclaration : Rule.Scope Symbol where
  edge := .before declarationMarks
  level _ := true
  guarded
    | .statement | .typeDeclaration | .annotationUse | .type | .elementValue => false
    | _ => true

/-- Before the declaration of an import. -/
def beforeImport : Rule.Scope Symbol where
  edge := .before ["import"]
  level _ := true
  guarded
    | .statement | .typeDeclaration => false
    | _ => true

/-- Before anything: what contains no statement or expression outside brackets. -/
def beforeAnything : Rule.Scope Symbol where
  edge := .anywhere
  level
    | .type | .plainType | .annotationUse | .recordPattern | .block | .classBody => true
    | _ => false
  guarded _ := false

theorem fits_inner : Rule.Scope.inner.Fits ruleOf mayEnd where
  level s _ := by cases s <;> rfl
  guarded s _ := by cases s <;> rfl

theorem fits_beforeDeclaration : beforeDeclaration.Fits ruleOf mayEnd where
  level s _ := by cases s <;> rfl
  guarded s known := by cases s <;> first | rfl | cases known

theorem fits_beforeImport : beforeImport.Fits ruleOf mayEnd where
  level s _ := by cases s <;> rfl
  guarded s known := by cases s <;> first | rfl | cases known

theorem fits_beforeAnything : beforeAnything.Fits ruleOf mayEnd where
  level s known := by cases s <;> first | rfl | cases known
  guarded s guarded := by cases guarded

theorem balance_ruleOf (s : Symbol) : (ruleOf s).balance = some 0 := by
  cases s <;> rfl

theorem closes_ruleOf (s : Symbol) : surelyEnds s = true → (ruleOf s).closes surelyEnds = true := by
  intro known
  cases s with
  | block | statement | typeDeclaration | classBody => rfl
  | _ => cases known

/-- The symbols that begin with the mark of an annotation. -/
def isAnnotation (s : Symbol) : Bool :=
  s == .annotationUse

theorem begins_ruleOf (s : Symbol) :
    isAnnotation s = true → (ruleOf s).begins isAnnotation declarationMarks = true := by
  intro known
  cases s with
  | annotationUse => rfl
  | _ => cases known

/-- The symbols that may give a declaration, blocks apart. -/
def mayDeclare (s : Symbol) : Bool :=
  s != .block

theorem gives_ruleOf {k : Kind} (apart : k ≠ .block) (s : Symbol) (known : mayDeclare s = false) :
    (ruleOf s).gives mayDeclare k = false := by
  cases s with
  | block => exact beq_false_of_ne fun same => apart same.symm
  | _ => cases known

/-- Whether a rule is that of the declarations of types and the like. -/
def isTypes : Rule Symbol → Bool
  | .ref .typeDeclaration => true
  | _ => false

/-- The declarations of imports and of the package. -/
def declarations : List Kind :=
  [.importDeclaration, .packageDeclaration]

theorem eq_of_mem_declarations {k : Kind} (h : k ∈ declarations) :
    k = .importDeclaration ∨ k = .packageDeclaration := by
  simpa [declarations] using h

theorem isTypes_of_gives (k : Kind) (declares : k ∈ declarations) :
    (statement.choices.all fun q => !q.gives mayDeclare k || isTypes q) = true := by
  rcases eq_of_mem_declarations declares with rfl | rfl <;> rfl

theorem begins_of_gives (k : Kind) (declares : k ∈ declarations) :
    (typeDeclaration.choices.all fun q => !q.gives mayDeclare k ||
      (q.begins isAnnotation declarationMarks && q.consumes)) = true := by
  rcases eq_of_mem_declarations declares with rfl | rfl <;> rfl

/-- The choices of a statement up to the declarations, and those after them. -/
theorem choices_statement : statement.choices =
    statement.choices.take 17 ++ .ref .typeDeclaration :: statement.choices.drop 18 :=
  rfl

theorem trace_choices_statement : ((statement.choices.take 17).all fun q =>
    (q.trace mayEnd beforeDeclaration ⟨0, false⟩).isSome && q.consumes) = true :=
  rfl

end Grammar

section

open Grammar (declarationMarks)

variable {ts rest : List Token} {nodes : List Node} {n : Node} {k : Kind}

/-- What is known of each construct at the top level. -/
structure IsConstruct (ts : List Token) : Prop where
  nonempty : ts ≠ []
  balanced : (∀ t ∈ ts, t.Plain) → brackets ts = 0
  closed : ∀ t, ts.getLast? = some t → t.ends = true

theorem isConstruct_of_reads (h : Rule.Reads Grammar.ruleOf Grammar.topLevel [] ts (some (nodes, rest))) :
    ∃ us, ts = us ++ rest ∧ IsConstruct us := by
  obtain ⟨us, split, derives⟩ := h.derives Grammar.enters_ruleOf
  exact ⟨us, split, derives.ne_nil Grammar.enters_ruleOf.takes rfl,
    fun plain => derives.brackets_eq Grammar.balance_ruleOf plain rfl,
    derives.ends Grammar.enters_ruleOf.takes Grammar.closes_ruleOf rfl⟩

/-- A declaration of an import or of the package is read as a declaration, and begins with one of a few
marks. -/
theorem reads_typeDeclaration
    (h : Rule.Reads Grammar.ruleOf Grammar.topLevel [] ts (some (nodes, rest)))
    (proper : ∀ t ∈ ts, t.Proper) (hn : n ∈ nodes) (is : n.is k = true)
    (declares : k ∈ Grammar.declarations) :
    Rule.Reads Grammar.ruleOf Grammar.typeDeclaration [] ts (some (nodes, rest)) ∧
      ∃ t us, ts = t :: us ∧ ∃ text ∈ declarationMarks, t.reads text = true := by
  have apart : k.isExtra = false ∧ k ≠ .missing ∧ k ≠ .block ∧ k ≠ .methodDeclaration := by
    rcases Grammar.eq_of_mem_declarations declares with rfl | rfl <;> decide
  -- whatever gives other kinds only has not been read
  have given {q : Rule Symbol} (reads : Rule.Reads Grammar.ruleOf q [] ts (some (nodes, rest))) :
      q.gives Grammar.mayDeclare k = true := by
    obtain ⟨us, rfl, derives⟩ := reads.derives Grammar.enters_ruleOf
    rw [← Bool.not_eq_false]
    intro other
    have none := derives.not_is apart.1 apart.2.1 (Grammar.gives_ruleOf apart.2.2.1)
      (fun t ht => proper t (List.mem_append_left _ ht)) other n hn
    rw [is] at none
    cases none
  have statement : Rule.Reads Grammar.ruleOf Grammar.statement [] ts (some (nodes, rest)) := by
    cases h with
    | altFirst first =>
      cases first with
      | ref inner => exact inner
    | altSecond _ second => exact (apart.2.2.2 (eq_of_beq (given second)).symm).elim
  have declaration : Rule.Reads Grammar.ruleOf Grammar.typeDeclaration [] ts (some (nodes, rest)) := by
    obtain ⟨q, hq, reads⟩ := statement.exists_choice
    have types := List.all_eq_true.1 (Grammar.isTypes_of_gives k declares) q hq
    rw [given reads, Bool.not_true, Bool.false_or] at types
    unfold Grammar.isTypes at types
    split at types
    · cases reads with
      | ref inner => exact inner
    · cases types
  refine ⟨declaration, ?_⟩
  obtain ⟨q, hq, reads⟩ := declaration.exists_choice
  have begins := List.all_eq_true.1 (Grammar.begins_of_gives k declares) q hq
  rw [given reads, Bool.not_true, Bool.false_or, Bool.and_eq_true] at begins
  obtain ⟨us, rfl, derives⟩ := reads.derives Grammar.enters_ruleOf
  cases us with
  | nil => exact (derives.ne_nil Grammar.enters_ruleOf.takes begins.2 rfl).elim
  | cons t us =>
    exact ⟨t, us ++ rest, rfl, derives.begins Grammar.enters_ruleOf.takes Grammar.begins_ruleOf begins.1 t rfl⟩

/-- What is read as a declaration and begins with one of the marks is read at the top level. -/
theorem reads_topLevel {p : List Node × List Token}
    (h : Rule.Reads Grammar.ruleOf Grammar.typeDeclaration [] ts (some p))
    (begins : Grammar.beforeDeclaration.edge.Admits ts) :
    Rule.Reads Grammar.ruleOf Grammar.topLevel [] ts (some p) := by
  refine .altFirst (.ref (Rule.reads_of_choice Grammar.choices_statement (fun q hq => ?_) (.ref h)))
  have sure := List.all_eq_true.1 Grammar.trace_choices_statement q hq
  rw [Bool.and_eq_true, Option.isSome_iff_exists] at sure
  obtain ⟨⟨s', traced⟩, consumes⟩ := sure
  exact Rule.reads_none_of_trace Grammar.enters_ruleOf Grammar.fits_inner Grammar.fits_beforeDeclaration
    traced consumes (fun same => by cases same) begins

end

end MonoTap.Java

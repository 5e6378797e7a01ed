import MonoTap.Java.SyntaxTree
import MonoTap.Proofs.Derivation

/-!
# Where nodes stand

The nodes of a tree stand in the order of their offsets: each one after its left neighbour, and the
nodes inside it between its ends. A derivation keeps this order if the tokens are in order and each
rule uses the left part of the chain around it first of all.
-/

set_option autoImplicit false

namespace MonoTap.Java

/-! ### Faults -/

theorem Node.mem_preorderAll {m : Node} {ns : List Node} :
    m ∈ preorderAll ns ↔ ∃ n ∈ ns, m ∈ n.preorder := by
  induction ns with
  | nil => simp [preorderAll]
  | cons n ns ih => simp [preorderAll, ih]

theorem Node.preorder_eq (n : Node) : n.preorder = n :: preorderAll n.children := by
  cases n with
  | mk label role start stop children => rfl

theorem Node.hasError_iff {n : Node} :
    n.hasError = true ↔ n.isAny [.error, .missing] = true ∨ ∃ c ∈ n.children, c.hasError = true := by
  have whole (m : Node) : m.hasError = true ↔ ∃ x ∈ m.preorder, x.isAny [.error, .missing] = true :=
    by rw [hasError, firstFault?, List.find?_isSome]
  simp only [whole]
  rw [preorder_eq]
  simp only [List.mem_cons, exists_eq_or_imp, mem_preorderAll]
  constructor
  · rintro (here | ⟨x, ⟨c, hc, hx⟩, fault⟩)
    · exact Or.inl here
    · exact Or.inr ⟨c, hc, x, hx, fault⟩
  · rintro (here | ⟨c, hc, x, hx, fault⟩)
    · exact Or.inl here
    · exact Or.inr ⟨x, ⟨c, hc, hx⟩, fault⟩

theorem Node.hasError_of_mem_children {c n : Node} (clean : n.hasError = false)
    (h : c ∈ n.children) : c.hasError = false := by
  cases hc : c.hasError with
  | false => rfl
  | true =>
    have := hasError_iff.2 (Or.inr ⟨c, h, hc⟩)
    rw [clean] at this
    cases this

theorem Node.not_isAny_of_hasError {n : Node} (clean : n.hasError = false) :
    n.isAny [.error, .missing] = false := by
  cases hn : n.isAny [.error, .missing] with
  | false => rfl
  | true =>
    have := hasError_iff.2 (Or.inl hn)
    rw [clean] at this
    cases this

theorem Node.hasError_withRole (n : Node) (part : Role) : (n.withRole part).hasError = n.hasError := by
  cases n with
  | mk label role start stop children =>
    have left := hasError_iff (n := mk label (some part) start stop children)
    have right := hasError_iff (n := mk label role start stop children)
    exact Bool.eq_iff_iff.2 (left.trans right.symm)

/-- What a node around some nodes leaves outside, and what it takes in. -/
theorem Node.wrap_cases (k : Kind) (ns : List Node) :
    ((∀ n ∈ ns, n.isExtra = true) ∧ wrap k ns = ns) ∨
      ∃ outside first others last, ns = outside ++ (first :: others) ∧
        (∀ n ∈ outside, n.isExtra = true) ∧ first.isExtra = false ∧
        (first :: others).getLast? = some last ∧
        wrap k ns = outside ++
          [mk (.kind k) none first.start last.stop (first :: others)] := by
  have split := List.takeWhile_append_dropWhile (p := isExtra) (l := ns)
  have extras : ∀ n ∈ ns.takeWhile isExtra, n.isExtra = true :=
    List.all_eq_true.1 List.all_takeWhile
  cases hinside : ns.dropWhile isExtra with
  | nil =>
    rw [hinside, List.append_nil] at split
    refine Or.inl ⟨split ▸ extras, ?_⟩
    simp only [wrap, hinside]
    exact split
  | cons first others =>
    obtain ⟨last, hlast⟩ : ∃ last, (first :: others).getLast? = some last :=
      ⟨_, List.getLast?_eq_some_getLast (List.cons_ne_nil _ _)⟩
    refine Or.inr ⟨ns.takeWhile isExtra, first, others, last, ?_, extras, ?_, hlast, ?_⟩
    · rw [← hinside, split]
    · have stops := List.head?_dropWhile_not isExtra ns
      rw [hinside] at stops
      simpa using stops
    · simp only [wrap, hinside, hlast, Option.map_some, Option.getD_some]

/-! ### Placed nodes -/

/-- Nodes that stand between two offsets one after the other, and so do the nodes inside them. The
ends of a node without a fault are related by `P`. -/
inductive Placed (P : Nat → Nat → Prop) : Nat → List Node → Nat → Prop
  | nil {lo hi : Nat} (order : lo ≤ hi) : Placed P lo [] hi
  | cons {lo hi : Nat} {n : Node} {ns : List Node} (after : lo ≤ n.start)
      (inside : Placed P n.start n.children n.stop)
      (covers : n.hasError = false → P n.start n.stop) (rest : Placed P n.stop ns hi) :
      Placed P lo (n :: ns) hi

/-- The end of one range and the start of an earlier one make up a range. -/
def Joins (P : Nat → Nat → Prop) : Prop :=
  ∀ ⦃a b c d : Nat⦄, P a b → P c d → a ≤ c → P a d

variable {P : Nat → Nat → Prop} {lo mid hi : Nat} {ns ms : List Node}

theorem Placed.le (h : Placed P lo ns hi) : lo ≤ hi := by
  induction h with
  | nil order => exact order
  | cons after _ _ _ inner outer => omega

theorem Placed.start_le_stop {n : Node} (h : Placed P lo (n :: ns) hi) : n.start ≤ n.stop := by
  cases h with
  | cons after inside covers rest => exact inside.le

theorem Placed.widen {lo' hi' : Nat} (h : Placed P lo ns hi) (low : lo' ≤ lo) (high : hi ≤ hi') :
    Placed P lo' ns hi' := by
  induction h generalizing lo' with
  | nil order => exact .nil (by omega)
  | cons after inside covers _ _ outer =>
    exact .cons (by omega) inside covers (outer (Nat.le_refl _) high)

theorem Placed.append (first : Placed P lo ns mid) (second : Placed P mid ms hi) :
    Placed P lo (ns ++ ms) hi := by
  induction first with
  | nil order => exact second.widen order (Nat.le_refl _)
  | cons after inside covers _ _ outer => exact .cons after inside covers (outer second)

theorem Placed.of_append (h : Placed P lo (ns ++ ms) hi) :
    ∃ mid, Placed P lo ns mid ∧ Placed P mid ms hi := by
  induction ns generalizing lo with
  | nil => exact ⟨lo, .nil (Nat.le_refl _), h⟩
  | cons n ns ih =>
    cases h with
    | cons after inside covers rest =>
      obtain ⟨mid, first, second⟩ := ih rest
      exact ⟨mid, .cons after inside covers first, second⟩

/-- Some of the nodes are placed as all of them are. -/
theorem Placed.sublist (h : Placed P lo ns hi) (sub : ms.Sublist ns) : Placed P lo ms hi := by
  induction h generalizing ms with
  | nil order =>
    cases List.eq_nil_of_sublist_nil sub
    exact .nil order
  | cons after inside covers _ _ ih =>
    cases sub with
    | cons _ sub =>
      have width := inside.le
      exact (ih sub).widen (by omega) (Nat.le_refl _)
    | cons_cons _ sub => exact .cons after inside covers (ih sub)

/-- What a placed node is related to by its own offsets. -/
theorem Placed.of_mem {n : Node} (h : Placed P lo ns hi) (mem : n ∈ ns) :
    lo ≤ n.start ∧ Placed P n.start n.children n.stop ∧ (n.hasError = false → P n.start n.stop) ∧
      n.stop ≤ hi := by
  obtain ⟨before, later, rfl⟩ := List.append_of_mem mem
  obtain ⟨mid, first, second⟩ := h.of_append
  cases second with
  | cons after inside covers rest =>
    have := first.le
    exact ⟨by omega, inside, covers, rest.le⟩

theorem Placed.head_le {n m : Node} (h : Placed P lo (n :: ns) hi) (hm : m ∈ n :: ns) :
    n.start ≤ m.start := by
  cases h with
  | cons after inside covers rest =>
    rcases List.mem_cons.1 hm with rfl | hm
    · exact Nat.le_refl _
    · have width := inside.le
      have := (rest.of_mem hm).1
      omega

theorem Placed.le_last {last m : Node} (h : Placed P lo ns hi) (hlast : ns.getLast? = some last)
    (hm : m ∈ ns) : m.stop ≤ last.stop := by
  obtain ⟨front, rfl⟩ := List.getLast?_eq_some_iff.1 hlast
  obtain ⟨between, earlier, atLast⟩ := h.of_append
  have width := atLast.start_le_stop
  have start := (atLast.of_mem List.mem_cons_self).1
  rcases List.mem_append.1 hm with mem | mem
  · have := (earlier.of_mem mem).2.2.2
    omega
  · cases List.mem_singleton.1 mem
    exact Nat.le_refl _

/-- The part that nodes play in their parent does not matter. -/
theorem Placed.assign {part : Role} (h : Placed P lo ns hi) :
    Placed P lo (Node.assign part ns) hi := by
  induction h with
  | nil order => exact .nil order
  | @cons lo hi n ns after inside covers rest _ outer =>
    rw [Node.assign, List.map_cons]
    split
    · exact .cons after inside covers outer
    · have covers : (n.withRole part).hasError = false → P n.start n.stop :=
        fun clean => covers ((n.hasError_withRole part).symm.trans clean)
      cases n with
      | mk label role start stop children => exact .cons after inside covers outer

theorem Placed.wrap (joins : Joins P) {k : Kind} (h : Placed P lo ns hi) :
    Placed P lo (Node.wrap k ns) hi := by
  rcases Node.wrap_cases k ns with
    ⟨_, same⟩ | ⟨outside, first, others, last, rfl, _, _, hlast, same⟩
  · rw [same]
    exact h
  rw [same]
  obtain ⟨mid, before, inside⟩ := h.of_append
  have mem := List.mem_of_getLast? hlast
  have start := (inside.of_mem List.mem_cons_self).1
  refine before.append (.cons start ?_ ?_ (.nil (inside.of_mem mem).2.2.2))
  · -- the nodes inside stand between the start of the first and the end of the last
    obtain ⟨front, hfront⟩ := List.getLast?_eq_some_iff.1 hlast
    show Placed P first.start (first :: others) last.stop
    rw [hfront] at inside ⊢
    obtain ⟨beforeLast, earlier, atLast⟩ := inside.of_append
    cases atLast with
    | cons after within covers rest =>
      have tight : Placed P mid (front ++ [last]) last.stop :=
        earlier.append (.cons after within covers (.nil (Nat.le_refl _)))
      rw [← hfront] at tight ⊢
      cases tight with
      | cons after within covers rest => exact .cons (Nat.le_refl _) within covers rest
  · intro clean
    have cleanChild {c : Node} (hc : c ∈ first :: others) : c.hasError = false :=
      Node.hasError_of_mem_children clean hc
    have atFirst := (inside.of_mem List.mem_cons_self).2.2.1 (cleanChild List.mem_cons_self)
    have atLast := (inside.of_mem mem).2.2.1 (cleanChild mem)
    refine joins atFirst atLast (show first.start ≤ last.start from ?_)
    cases inside with
    | cons after within covers rest =>
      have width := within.le
      rcases List.mem_cons.1 mem with rfl | later
      · omega
      · have := (rest.of_mem later).1
        omega

/-! ### Placed tokens -/

/-- What may stand between any two tokens. It holds no nodes and plays no part. -/
structure Node.IsLoose (n : Node) : Prop where
  extra : n.isExtra = true
  children : n.children = []
  role : n.role = none

/-- What every token of a text, repaired or not, is like: what stands before it is loose, a literal is
of no such kind, and a token that was put in has one of a few texts. -/
structure Token.Proper (t : Token) : Prop where
  loose : ∀ n ∈ t.extras, n.IsLoose
  literal : ∀ k, t.kind = .literal k → k.isComment = false ∧ k ≠ .error
  inserted : t.kind = .missing → t.text ∈ insertable

/-- Whether a token is neither put in nor unreadable. -/
def Token.IsGenuine (t : Token) : Prop :=
  t.kind ≠ .missing ∧ t.kind ≠ .stray

/-- Tokens that stand between two offsets one after the other, with what stands before each. The
ends of a genuine token are related by `P`. -/
inductive TokensPlaced (P : Nat → Nat → Prop) : Nat → List Token → Nat → Prop
  | nil {lo hi : Nat} (order : lo ≤ hi) : TokensPlaced P lo [] hi
  | cons {lo hi : Nat} {t : Token} {ts : List Token} (proper : t.Proper)
      (extras : Placed P lo t.extras t.start) (width : t.start ≤ t.stop)
      (covers : t.IsGenuine → P t.start t.stop) (rest : TokensPlaced P t.stop ts hi) :
      TokensPlaced P lo (t :: ts) hi

variable {ts us : List Token}

theorem TokensPlaced.le (h : TokensPlaced P lo ts hi) : lo ≤ hi := by
  induction h with
  | nil order => exact order
  | cons _ extras width _ _ later =>
    have := extras.le
    omega

theorem TokensPlaced.append (first : TokensPlaced P lo ts mid) (second : TokensPlaced P mid us hi) :
    TokensPlaced P lo (ts ++ us) hi := by
  induction first with
  | nil order =>
    cases second with
    | nil order' => exact .nil (by omega)
    | cons proper extras width covers rest =>
      exact .cons proper (extras.widen order (Nat.le_refl _)) width covers rest
  | cons proper extras width covers _ later =>
    exact .cons proper extras width covers (later second)

theorem TokensPlaced.of_append (h : TokensPlaced P lo (ts ++ us) hi) :
    ∃ mid, TokensPlaced P lo ts mid ∧ TokensPlaced P mid us hi := by
  induction ts generalizing lo with
  | nil => exact ⟨lo, .nil (Nat.le_refl _), h⟩
  | cons t ts ih =>
    cases h with
    | cons proper extras width covers rest =>
      obtain ⟨mid, first, second⟩ := ih rest
      exact ⟨mid, .cons proper extras width covers first, second⟩

theorem TokensPlaced.widen {lo' : Nat} (h : TokensPlaced P lo ts hi) (low : lo' ≤ lo) :
    TokensPlaced P lo' ts hi :=
  TokensPlaced.append (.nil low) h

/-- Placed tokens stop where the last of them does. -/
theorem TokensPlaced.tight (h : TokensPlaced P lo ts hi) :
    TokensPlaced P lo ts ((ts.getLast?.map Token.stop).getD lo) ∧
      (ts.getLast?.map Token.stop).getD lo ≤ hi := by
  induction h with
  | nil order => exact ⟨.nil (Nat.le_refl _), order⟩
  | @cons lo hi t ts proper extras width covers rest ih =>
    have last : ((t :: ts).getLast?.map Token.stop).getD lo =
        (ts.getLast?.map Token.stop).getD t.stop := by
      rw [List.getLast?_cons]
      cases ts.getLast? <;> rfl
    rw [last]
    exact ⟨.cons proper extras width covers ih.1, ih.2⟩

/-- A token that a rule takes is no stray one. -/
theorem Token.genuine_of_reads {t : Token} {text : String} (reads : t.reads text = true)
    (kind : t.kind ≠ .missing) : t.IsGenuine := by
  refine ⟨kind, fun stray => ?_⟩
  rw [Token.reads, stray] at reads
  cases reads

theorem Token.text_of_reads {t : Token} {text : String} (reads : t.reads text = true) :
    t.text = text := by
  rw [Token.reads, Bool.and_eq_true] at reads
  exact eq_of_beq reads.2

/-- A token as a node, after what stands before it. -/
theorem TokensPlaced.toNodes {t : Token} {label : Label} (h : TokensPlaced P lo [t] hi)
    (notStray : t.kind ≠ .stray) : Placed P lo (t.toNodes label) hi := by
  cases h with
  | cons proper extras width covers rest =>
    refine extras.append (.cons (Nat.le_refl _) (.nil width) (fun clean => covers ⟨?_, notStray⟩)
      (.nil rest.le))
    intro missing
    have fault := Node.not_isAny_of_hasError clean
    simp [missing, Node.isAny, Node.is, Node.label] at fault

/-- Tokens side by side make up one range. -/
theorem Adjacent.covers {start first stop : Nat} {texts : List String} (joins : Joins P)
    (h : Adjacent start texts ts stop) (fresh : ∀ text ∈ texts, text ∉ insertable)
    (placed : TokensPlaced P start ts hi) (before : P first start) (order : first ≤ start) :
    P first stop ∧ first ≤ stop ∧ stop ≤ hi := by
  induction h with
  | nil stop => exact ⟨before, order, placed.le⟩
  | @cons start stop text texts t ts joined bare reads more ih =>
    cases placed with
    | cons proper extras width covers rest =>
      have kind : t.kind ≠ .missing := fun missing =>
        fresh text List.mem_cons_self (Token.text_of_reads reads ▸ proper.inserted missing)
      have here := covers (Token.genuine_of_reads reads kind)
      exact ih (fun text mem => fresh text (List.mem_cons_of_mem _ mem)) rest
        (joins before here (by omega)) (by omega)

/-! ### Derivations keep the order -/

/-- How a rule uses the left part of the chain around it. -/
inductive LeftUse where
  | never | first | astray
  deriving DecidableEq

namespace Rule

variable {S : Type}

/-- Whether a rule uses the left part of the chain around it never, first of all, or in another
way. -/
def leftUse : Rule S → LeftUse
  | .left => .first
  | .seq a b =>
    match leftUse b with
    | .never => leftUse a
    | _ => .astray
  | .alt a b => if leftUse a = leftUse b then leftUse a else .astray
  | .many r => if leftUse r = .never then .never else .astray
  | .node _ r => leftUse r
  | .field _ r => leftUse r
  | .chain base suffix =>
    match leftUse suffix with
    | .first => leftUse base
    | _ => .astray
  | _ => .never

/-- Whether no token that may be put in is read as a part of another one. -/
def gluesGenuine : Rule S → Bool
  | .token texts => texts.length ≤ 1 || texts.all (!insertable.contains ·)
  | .seq a b => gluesGenuine a && gluesGenuine b
  | .alt a b => gluesGenuine a && gluesGenuine b
  | .many r => gluesGenuine r
  | .node _ r => gluesGenuine r
  | .field _ r => gluesGenuine r
  | .chain base suffix => gluesGenuine base && gluesGenuine suffix
  | _ => true

variable {grammar : S → Rule S} {rule : Rule S} {op nodes : List Node}

/-- Where the nodes stand that a rule gives. -/
structure Keeps (P : Nat → Nat → Prop) (use : LeftUse) (op : List Node) (ts : List Token)
    (nodes : List Node) : Prop where
  never : use = .never → ∀ lo hi, TokensPlaced P lo ts hi → Placed P lo nodes hi
  first : use = .first → ∀ lo mid hi, Placed P lo op mid → TokensPlaced P mid ts hi →
    Placed P lo nodes hi

theorem Keeps.astray : Keeps P .astray op ts nodes :=
  ⟨fun use => (by cases use), fun use => (by cases use)⟩

/-- A derivation puts the nodes where their tokens stand. -/
theorem Derives.keeps (joins : Joins P) (closed : ∀ s, (grammar s).leftUse = .never)
    (genuine : ∀ s, (grammar s).gluesGenuine = true) (h : Derives grammar rule op ts nodes)
    (glues : rule.gluesGenuine = true) : Keeps P rule.leftUse op ts nodes := by
  induction h with
  | empty => exact ⟨fun _ _ _ h => .nil h.le, fun h => by cases h⟩
  | left => exact ⟨fun h => (by cases h), fun _ _ _ _ op h => op.widen (Nat.le_refl _) h.le⟩
  | token reads =>
    refine ⟨fun _ _ _ h => h.toNodes fun stray => ?_, fun h => by cases h⟩
    rw [Token.reads, stray] at reads
    cases reads
  | @glued op text next texts t ts stop reads more =>
    refine ⟨fun _ lo hi h => ?_, fun h => by cases h⟩
    have fresh : ∀ x ∈ text :: next :: texts, x ∉ insertable := by
      simpa [gluesGenuine] using glues
    cases h with
    | cons proper extras width covers rest =>
      have kind : t.kind ≠ .missing := fun missing =>
        fresh text List.mem_cons_self (Token.text_of_reads reads ▸ proper.inserted missing)
      obtain ⟨whole, length, bound⟩ := more.covers joins
        (fun x mem => fresh x (List.mem_cons_of_mem _ mem)) rest
        (covers (Token.genuine_of_reads reads kind)) width
      exact extras.append (.cons (Nat.le_refl _) (.nil length) (fun _ => whole) (.nil bound))
  | leaf reads =>
    refine ⟨fun _ _ _ h => h.toNodes fun stray => ?_, fun h => by cases h⟩
    rw [Token.reads, stray] at reads
    cases reads
  | name isName =>
    refine ⟨fun _ _ _ h => h.toNodes fun stray => ?_, fun h => by cases h⟩
    rw [Token.isName, stray] at isName
    cases isName
  | literal is =>
    refine ⟨fun _ _ _ h => h.toNodes fun stray => ?_, fun h => by cases h⟩
    rw [literalLabel?, stray] at is
    cases is
  | @ref op nodes s ts inner ih =>
    exact ⟨fun _ => (ih (genuine s)).never (closed s), fun h => by cases h⟩
  | @seq a b op first second ts us left right ihLeft ihRight =>
    rw [gluesGenuine, Bool.and_eq_true] at glues
    have keepsLeft := ihLeft glues.1
    have keepsRight := ihRight glues.2
    rw [leftUse]
    cases hb : b.leftUse with
    | first => exact .astray
    | astray => exact .astray
    | never =>
      refine ⟨fun use lo hi h => ?_, fun use lo mid hi operand h => ?_⟩
      · obtain ⟨mid, before, later⟩ := h.of_append
        exact (keepsLeft.never use lo mid before).append (keepsRight.never hb mid hi later)
      · obtain ⟨between, before, later⟩ := h.of_append
        exact (keepsLeft.first use lo mid between operand before).append
          (keepsRight.never hb between hi later)
  | @altLeft a b op nodes ts left ih =>
    rw [gluesGenuine, Bool.and_eq_true] at glues
    rw [leftUse]
    split
    · exact ih glues.1
    · exact .astray
  | @altRight a b op nodes ts right ih =>
    rw [gluesGenuine, Bool.and_eq_true] at glues
    rw [leftUse]
    split
    · rename_i same
      rw [same]
      exact ih glues.2
    · exact .astray
  | @manyNil r op =>
    rw [leftUse]
    split
    · exact ⟨fun _ _ _ h => .nil h.le, fun h => by cases h⟩
    · exact .astray
  | @manyCons r op first others ts us head tail ihHead ihTail =>
    have keepsHead := ihHead glues
    have keepsTail := ihTail glues
    rw [leftUse] at keepsTail ⊢
    split
    · rename_i never
      rw [if_pos never] at keepsTail
      refine ⟨fun _ lo hi h => ?_, fun h => by cases h⟩
      obtain ⟨mid, before, later⟩ := h.of_append
      exact (keepsHead.never never lo mid before).append (keepsTail.never rfl mid hi later)
    · exact .astray
  | «unless» => exact ⟨fun _ _ _ h => .nil h.le, fun h => by cases h⟩
  | node inner ih =>
    have keeps := ih glues
    exact ⟨fun use lo hi h => (keeps.never use lo hi h).wrap joins,
      fun use lo mid hi operand h => (keeps.first use lo mid hi operand h).wrap joins⟩
  | field inner ih =>
    have keeps := ih glues
    exact ⟨fun use lo hi h => (keeps.never use lo hi h).assign,
      fun use lo mid hi operand h => (keeps.first use lo mid hi operand h).assign⟩
  | @chainBase base suffix op nodes ts inner ih =>
    rw [gluesGenuine, Bool.and_eq_true] at glues
    rw [leftUse]
    split
    · exact ih glues.1
    · exact .astray
  | @chainMore base suffix op nodes longer result ts us vs inner step more ihInner ihStep ihMore =>
    rw [gluesGenuine, Bool.and_eq_true] at glues
    have keepsBase := ihInner glues.1
    have keepsStep := ihStep glues.2
    have keepsMore := ihMore (by rw [gluesGenuine, glues.2]; rfl)
    rw [leftUse] at keepsMore ⊢
    cases hsuffix : suffix.leftUse with
    | never => exact .astray
    | astray => exact .astray
    | first =>
      rw [hsuffix] at keepsMore
      -- the suffix goes on where the base has stopped, and so does the rest of the chain
      have onwards {lo mid hi : Nat} (base : Placed P lo nodes mid)
          (rest : TokensPlaced P mid (us ++ vs) hi) : Placed P lo result hi := by
        obtain ⟨between, before, later⟩ := rest.of_append
        exact keepsMore.first rfl lo between hi
          (keepsStep.first hsuffix lo mid between base before) later
      refine ⟨fun use lo hi h => ?_, fun use lo mid hi operand h => ?_⟩
      · obtain ⟨mid, before, later⟩ := h.of_append
        exact onwards (keepsBase.never use lo mid before) later
      · obtain ⟨between, before, later⟩ := h.of_append
        exact onwards (keepsBase.first use lo mid between operand before) later

end Rule

end MonoTap.Java

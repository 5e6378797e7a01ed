import Mathlib.Data.List.Chain
import MonoTap.Proofs.Shapes

/-!
# Relocated trees

A tree from which some comments are left out, with the offsets of the other nodes moved. Reading does not
look at comments and offsets, but for one case: two marks are read as one only if nothing parts them. So
what is read from relocated tokens is what is read from the tokens, relocated.
-/

set_option autoImplicit false

namespace MonoTap.Java

/-- Which comments are left out, and where the ends of the other nodes go. -/
structure Relocation where
  drops : Node → Bool
  start : Nat → Nat
  stop : Nat → Nat
  comment : ∀ n, drops n = true → n.isComment = true

/-- Everything stays where it is. -/
def Relocation.still : Relocation where
  drops _ := false
  start := id
  stop := id
  comment _ dropped := by cases dropped

namespace Node

mutual

/-- The node without what is left out, at its new place. -/
def relocate (e : Relocation) : Node → Node
  | mk label role start stop children =>
    mk label role (e.start start) (e.stop stop) (relocateAll e children)

/-- The nodes that are not left out, at their new places. -/
def relocateAll (e : Relocation) : List Node → List Node
  | [] => []
  | n :: ns => if e.drops n then relocateAll e ns else relocate e n :: relocateAll e ns

end

variable {e : Relocation}

theorem relocateAll_eq (e : Relocation) (ns : List Node) :
    relocateAll e ns = (ns.filter (!e.drops ·)).map (relocate e) := by
  induction ns with
  | nil => rfl
  | cons n ns ih =>
    rw [relocateAll, ih, List.filter_cons]
    cases e.drops n <;> rfl

theorem relocateAll_append (e : Relocation) (ns ms : List Node) :
    relocateAll e (ns ++ ms) = relocateAll e ns ++ relocateAll e ms := by
  rw [relocateAll_eq, relocateAll_eq, relocateAll_eq, List.filter_append, List.map_append]

theorem relocateAll_cons {n : Node} (kept : e.drops n = false) (ns : List Node) :
    relocateAll e (n :: ns) = relocate e n :: relocateAll e ns := by
  rw [relocateAll, kept, if_neg Bool.false_ne_true]

theorem mem_relocateAll {n : Node} {ns : List Node} :
    n ∈ relocateAll e ns ↔ ∃ m ∈ ns, e.drops m = false ∧ m.relocate e = n := by
  rw [relocateAll_eq, List.mem_map]
  simp only [List.mem_filter, Bool.not_eq_true', and_assoc]

/-- Nodes of which none is left out. -/
theorem relocateAll_of_kept {ns : List Node} (kept : ∀ n ∈ ns, e.drops n = false) :
    relocateAll e ns = ns.map (relocate e) := by
  rw [relocateAll_eq, List.filter_eq_self.2 fun n hn => by rw [kept n hn]; rfl]

@[simp] theorem label_relocate (n : Node) : (n.relocate e).label = n.label := by
  cases n
  rfl

@[simp] theorem role_relocate (n : Node) : (n.relocate e).role = n.role := by
  cases n
  rfl

@[simp] theorem start_relocate (n : Node) : (n.relocate e).start = e.start n.start := by
  cases n
  rfl

@[simp] theorem stop_relocate (n : Node) : (n.relocate e).stop = e.stop n.stop := by
  cases n
  rfl

@[simp] theorem children_relocate (n : Node) :
    (n.relocate e).children = relocateAll e n.children := by
  cases n
  rfl

@[simp] theorem is_relocate (n : Node) (k : Kind) : (n.relocate e).is k = n.is k := by
  rw [is, label_relocate, is]

@[simp] theorem isAny_relocate (n : Node) (ks : List Kind) : (n.relocate e).isAny ks = n.isAny ks := by
  rw [isAny, isAny, show (n.relocate e).is = n.is from funext n.is_relocate]

@[simp] theorem isNamed_relocate (n : Node) : (n.relocate e).isNamed = n.isNamed := by
  rw [isNamed, label_relocate, isNamed]

@[simp] theorem isComment_relocate (n : Node) : (n.relocate e).isComment = n.isComment := by
  rw [isComment, label_relocate, isComment]

@[simp] theorem isExtra_relocate (n : Node) : (n.relocate e).isExtra = n.isExtra := by
  rw [isExtra, isComment_relocate, is_relocate, isExtra]

theorem getLast?_relocateAll {ns : List Node} (kept : ∀ n, ns.getLast? = some n → e.drops n = false) :
    (relocateAll e ns).getLast? = ns.getLast?.map (relocate e) := by
  cases last : ns.getLast? with
  | none => rw [List.getLast?_eq_none_iff.1 last]; rfl
  | some n =>
    obtain ⟨front, rfl⟩ := List.getLast?_eq_some_iff.1 last
    rw [relocateAll_append, relocateAll_cons (kept n last), List.getLast?_append]
    rfl

theorem head?_relocateAll {ns : List Node} (kept : ∀ n, ns.head? = some n → e.drops n = false) :
    (relocateAll e ns).head? = ns.head?.map (relocate e) := by
  cases ns with
  | nil => rfl
  | cons n ns => rw [relocateAll_cons (kept n rfl)]; rfl

theorem relocate_withRole (n : Node) (part : Role) :
    (n.withRole part).relocate e = (n.relocate e).withRole part := by
  cases n
  rfl

/-- Only what may stand between any two tokens is left out. -/
theorem not_drops {n : Node} (counts : n.isExtra = false) : e.drops n = false := by
  cases dropped : e.drops n with
  | false => rfl
  | true =>
    rw [isExtra, e.comment n dropped] at counts
    cases counts

theorem relocateAll_assign (part : Role) (ns : List Node) :
    relocateAll e (assign part ns) = assign part (relocateAll e ns) := by
  induction ns with
  | nil => rfl
  | cons n ns ih =>
    rw [assign, List.map_cons, ← assign]
    cases extra : n.isExtra with
    | false =>
      rw [if_neg Bool.false_ne_true, relocateAll_cons (not_drops ((isExtra_withRole n part).trans extra)),
        relocateAll_cons (not_drops extra), ih, relocate_withRole, assign, assign, List.map_cons,
        isExtra_relocate, extra, if_neg Bool.false_ne_true]
    | true =>
      rw [if_pos rfl, relocateAll, relocateAll, ih]
      split
      · rfl
      · rw [assign, assign, List.map_cons, isExtra_relocate, extra, if_pos rfl]

/-! ### What a rule gives last -/

/-- Whether some nodes do not end with one that may stand between any two tokens. -/
def Closed (ns : List Node) : Prop :=
  ∀ n, ns.getLast? = some n → n.isExtra = false

theorem closed_nil : Closed [] := fun n hn => by cases hn

theorem closed_concat {n : Node} (counts : n.isExtra = false) (ns : List Node) : Closed (ns ++ [n]) := by
  intro m hm
  rw [List.getLast?_concat] at hm
  cases hm
  exact counts

theorem Closed.append {ns ms : List Node} (first : Closed ns) (second : Closed ms) :
    Closed (ns ++ ms) := by
  intro n hn
  rw [List.getLast?_append] at hn
  rcases Option.or_eq_some_iff.1 hn with last | ⟨_, last⟩
  · exact second n last
  · exact first n last

theorem Closed.assign {ns : List Node} (h : Closed ns) (part : Role) : Closed (assign part ns) := by
  intro n hn
  rw [Node.assign, List.getLast?_map] at hn
  obtain ⟨m, hm, rfl⟩ := Option.map_eq_some_iff.1 hn
  have counts := h m hm
  rw [counts, if_neg Bool.false_ne_true, isExtra_withRole, counts]

theorem wrap_eq (k : Kind) {outside others : List Node} {first last : Node}
    (extras : ∀ n ∈ outside, n.isExtra = true) (counts : first.isExtra = false)
    (isLast : (first :: others).getLast? = some last) :
    wrap k (outside ++ first :: others) =
      outside ++ [mk (.kind k) none first.start last.stop (first :: others)] := by
  have inside : (first :: others).takeWhile isExtra = [] ∧
      (first :: others).dropWhile isExtra = first :: others := by
    rw [List.takeWhile_cons, List.dropWhile_cons, counts]
    exact ⟨rfl, rfl⟩
  rw [wrap, List.takeWhile_append_of_pos extras, List.dropWhile_append_of_pos extras, inside.1, inside.2,
    List.append_nil, isLast]
  rfl

/-- Nodes that are all extra are no closed ones. -/
theorem Closed.eq_nil {ns : List Node} (h : Closed ns) (extras : ∀ n ∈ ns, n.isExtra = true) :
    ns = [] := by
  cases last : ns.getLast? with
  | none => exact List.getLast?_eq_none_iff.1 last
  | some n =>
    have counts := h n last
    rw [extras n (List.mem_of_getLast? last)] at counts
    cases counts

theorem Closed.wrap {ns : List Node} (h : Closed ns) {k : Kind} (plain : k.isExtra = false) :
    Closed (wrap k ns) := by
  rcases wrap_cases k ns with ⟨extras, same⟩ | ⟨outside, first, others, last, _, _, _, _, same⟩
  · rw [same, h.eq_nil extras]
    exact closed_nil
  · rw [same]
    exact closed_concat ((isExtra_kind ..).trans plain) _

theorem relocateAll_wrap {ns : List Node} (h : Closed ns) {k : Kind} (plain : k.isExtra = false) :
    relocateAll e (wrap k ns) = wrap k (relocateAll e ns) := by
  rcases wrap_cases k ns with
    ⟨extras, same⟩ | ⟨outside, first, others, last, split, extras, counts, isLast, same⟩
  · rw [same, h.eq_nil extras]
    rfl
  · obtain ⟨front, parts⟩ := List.getLast?_eq_some_iff.1 isLast
    have lastCounts : last.isExtra = false := by
      refine h last ?_
      rw [split, parts, ← List.append_assoc, List.getLast?_concat]
    have kept : relocateAll e (first :: others) = first.relocate e :: relocateAll e others :=
      relocateAll_cons (not_drops counts) others
    have relocatedLast : (first.relocate e :: relocateAll e others).getLast? = some (last.relocate e) := by
      rw [← kept, parts, relocateAll_append, relocateAll_cons (not_drops lastCounts), relocateAll,
        List.getLast?_concat]
    have relocatedExtras : ∀ n ∈ relocateAll e outside, n.isExtra = true := by
      intro n hn
      rw [relocateAll_eq] at hn
      obtain ⟨m, hm, rfl⟩ := List.mem_map.1 hn
      rw [isExtra_relocate, extras m (List.mem_filter.1 hm).1]
    rw [same, split, relocateAll_append, relocateAll_append, kept,
      wrap_eq k relocatedExtras ((isExtra_relocate first).trans counts) relocatedLast,
      relocateAll_cons (not_drops ((isExtra_kind ..).trans plain)), relocate, kept, start_relocate,
      stop_relocate]
    rfl

/-! ### Nodes inside -/

mutual

/-- The nodes inside a relocated node. -/
theorem preorder_relocate (n : Node) (leaf : ∀ m ∈ n.preorder, e.drops m = true → m.children = [])
    (kept : e.drops n = false) : (n.relocate e).preorder = relocateAll e n.preorder := by
  cases n with
  | mk label role start stop children =>
    have inside := preorderAll_relocateAll children fun m hm => leaf m (List.mem_cons_of_mem _ hm)
    rw [relocate, preorder, preorder, relocateAll_cons kept, inside, relocate]

theorem preorderAll_relocateAll (ns : List Node)
    (leaf : ∀ m ∈ preorderAll ns, e.drops m = true → m.children = []) :
    preorderAll (relocateAll e ns) = relocateAll e (preorderAll ns) := by
  cases ns with
  | nil => rfl
  | cons n ns =>
    rw [preorderAll, List.forall_mem_append] at leaf
    have rest := preorderAll_relocateAll ns leaf.2
    rw [preorderAll, relocateAll_append, ← rest, relocateAll]
    cases dropped : e.drops n with
    | false => rw [if_neg Bool.false_ne_true, preorderAll, preorder_relocate n leaf.1 dropped]
    | true =>
      have own : n ∈ n.preorder := by
        rw [preorder_eq]
        exact List.mem_cons_self
      rw [if_pos rfl, preorder_eq, leaf.1 n own dropped, preorderAll, relocateAll, if_pos dropped]
      rfl

end

end Node

/-! ### Tokens -/

/-- The token at its new place, without the comments before it that are left out. -/
def Token.relocate (e : Relocation) (t : Token) : Token :=
  { t with start := e.start t.start, stop := e.stop t.stop, extras := Node.relocateAll e t.extras }

/-- Whether nothing parts two tokens. -/
def Token.adheres (t u : Token) : Bool :=
  u.start == t.stop && u.extras.isEmpty

/-- The words and marks that are read as one where nothing parts them, two by two. -/
def joinedMarks : List (String × String) :=
  [(">", ">"), (">", "="), ("@", "interface"), ("non", "-"), ("-", "sealed")]

/-- Whether all neighbours among some words and marks are read as one. -/
def areJoined : List String → Bool
  | a :: b :: rest => joinedMarks.contains (a, b) && areJoined (b :: rest)
  | _ => true

/-- Two tokens that may be read as one are parted before just when they are parted after. -/
def Relocation.Keeps (e : Relocation) (t u : Token) : Prop :=
  joinedMarks.contains (t.text, u.text) = true → (t.relocate e).adheres (u.relocate e) = t.adheres u

/-- The tokens that are left, at their new places. -/
def Input.relocate (e : Relocation) (i : Input) : Input :=
  ⟨i.position, i.rest.map (Token.relocate e)⟩

/-- The outcome, with the nodes and the tokens that are left at their new places. -/
def Outcome.relocate (e : Relocation) (o : Outcome) : Outcome :=
  ⟨o.reach, o.result.map fun r => (Node.relocateAll e r.1, r.2.relocate e)⟩

theorem Token.reads_relocate (e : Relocation) (t : Token) (text : String) :
    (t.relocate e).reads text = t.reads text := rfl

theorem Token.isName_relocate (e : Relocation) (t : Token) : (t.relocate e).isName = t.isName := rfl

theorem Token.toNodes_relocate {e : Relocation} {t : Token} {label : Label}
    (plain : ∀ k, label = .kind k → k.isExtra = false) :
    (t.relocate e).toNodes label = Node.relocateAll e (t.toNodes label) := by
  have counts : (Node.mk (if t.kind == .missing then .kind .missing else label) none t.start t.stop
      []).isExtra = false := by
    split
    · rfl
    · cases label with
      | kind k => exact (Node.isExtra_kind ..).trans (plain k rfl)
      | token text => rfl
  rw [toNodes, toNodes, Node.relocateAll_append, Node.relocateAll_cons (Node.not_drops counts)]
  rfl

namespace Rule

variable {S : Type}

/-- Whether a rule makes one token only of marks that are read as one, and no node of a kind that may
stand between any two tokens. -/
def isTidy : Rule S → Bool
  | .token texts => areJoined texts
  | .leaf _ k | .name k => !k.isExtra
  | .seq a b | .alt a b | .chain a b => isTidy a && isTidy b
  | .many r | .unless r | .field _ r => isTidy r
  | .node k r => !k.isExtra && isTidy r
  | _ => true

variable {grammar : S → Rule S} {rule : Rule S} {op nodes : List Node} {ts : List Token}

theorem closed_toNodes {t : Token} {label : Label} (plain : ∀ k, label = .kind k → k.isExtra = false) :
    Node.Closed (t.toNodes label) := by
  refine Node.closed_concat ?_ _
  split
  · rfl
  · cases label with
    | kind k => exact (Node.isExtra_kind ..).trans (plain k rfl)
    | token text => rfl

theorem plain_of_tidy {k : Kind} (tidy : (!k.isExtra) = true) :
    ∀ l, Label.kind k = .kind l → l.isExtra = false := by
  intro l same
  cases same
  rwa [Bool.not_eq_true'] at tidy

/-- What a derivation gives does not end with a comment. -/
theorem Derives.closed (tidies : ∀ s, (grammar s).isTidy = true)
    (h : Derives grammar rule op ts nodes) (tidy : rule.isTidy = true) (proper : ∀ t ∈ ts, t.Proper)
    (operand : Node.Closed op) : Node.Closed nodes := by
  induction h with
  | empty | manyNil | «unless» => exact Node.closed_nil
  | left => exact operand
  | token reads => exact closed_toNodes fun k same => by cases same
  | glued reads more => exact Node.closed_concat rfl _
  | leaf reads => exact closed_toNodes (plain_of_tidy tidy)
  | name isName => exact closed_toNodes (plain_of_tidy tidy)
  | literal is => exact closed_toNodes (plain_of_literalLabel (proper _ List.mem_cons_self) is)
  | @ref op nodes s ts inner ih => exact ih (tidies s) proper operand
  | seq left right ihLeft ihRight =>
    rw [isTidy, Bool.and_eq_true] at tidy
    exact (ihLeft tidy.1 (fun t ht => proper t (List.mem_append_left _ ht)) operand).append
      (ihRight tidy.2 (fun t ht => proper t (List.mem_append_right _ ht)) operand)
  | altLeft left ih =>
    rw [isTidy, Bool.and_eq_true] at tidy
    exact ih tidy.1 proper operand
  | altRight right ih =>
    rw [isTidy, Bool.and_eq_true] at tidy
    exact ih tidy.2 proper operand
  | manyCons head tail ihHead ihTail =>
    exact (ihHead tidy (fun t ht => proper t (List.mem_append_left _ ht)) operand).append
      (ihTail tidy (fun t ht => proper t (List.mem_append_right _ ht)) operand)
  | node inner ih =>
    rw [isTidy, Bool.and_eq_true, Bool.not_eq_true'] at tidy
    exact (ih tidy.2 proper operand).wrap tidy.1
  | @field r part op nodes ts inner ih => exact (ih tidy proper operand).assign part
  | chainBase inner ih =>
    rw [isTidy, Bool.and_eq_true] at tidy
    exact ih tidy.1 proper operand
  | chainMore inner step more ihInner ihStep ihMore =>
    rw [isTidy, Bool.and_eq_true] at tidy
    refine ihMore (by rw [isTidy, tidy.2]; rfl)
      (fun t ht => proper t (List.mem_append_right _ (List.mem_append_right _ ht))) ?_
    refine ihStep tidy.2
      (fun t ht => proper t (List.mem_append_right _ (List.mem_append_left _ ht))) ?_
    exact ihInner tidy.1 (fun t ht => proper t (List.mem_append_left _ ht)) operand

/-! ### Reading relocated tokens -/

variable {e : Relocation}

/-- What can be read from tokens that a relocation keeps. -/
structure Readable (e : Relocation) (i : Input) : Prop where
  keeps : i.rest.IsChain e.Keeps
  proper : ∀ t ∈ i.rest, t.Proper

theorem Readable.of_rest {i next : Input} (h : Readable e i) (split : i.rest = ts ++ next.rest) :
    Readable e next := by
  have keeps := h.keeps
  rw [split] at keeps
  exact ⟨keeps.right_of_append, fun t ht => h.proper t (split ▸ List.mem_append_right _ ht)⟩

/-- The rest of a token that is made of several. -/
theorem glue_relocate {t : Token} {text : String} {texts : List String} {rest : List Token}
    (reads : t.reads text = true) (joined : areJoined (text :: texts) = true)
    (keeps : (t :: rest).IsChain e.Keeps) :
    glue (e.stop t.stop) texts (rest.map (Token.relocate e)) =
      (glue t.stop texts rest).map fun r => (e.stop r.1, r.2.map (Token.relocate e)) := by
  induction texts generalizing t text rest with
  | nil => rfl
  | cons next texts ih =>
    cases rest with
    | nil => rfl
    | cons u rest =>
      obtain ⟨kept, keeps⟩ := List.isChain_cons_cons.1 keeps
      rw [areJoined, Bool.and_eq_true] at joined
      rw [List.map_cons, glue, glue, Token.reads_relocate]
      cases readsNext : u.reads next with
      | false => rw [Bool.and_false, Bool.and_false]; rfl
      | true =>
        have same : (t.relocate e).adheres (u.relocate e) = t.adheres u := by
          refine kept ?_
          rw [Token.text_of_reads reads, Token.text_of_reads readsNext]
          exact joined.1
        rw [Token.adheres, Token.adheres] at same
        rw [Bool.and_true, Bool.and_true]
        rw [show ((u.relocate e).start == e.stop t.stop) = ((u.relocate e).start == (t.relocate e).stop)
          from rfl, same]
        split
        · exact ih readsNext joined.2 keeps
        · rfl

theorem readToken_relocate {texts : List String} {i : Input} (joined : areJoined texts = true)
    (readable : Readable e i) :
    readToken texts (i.relocate e) =
      (readToken texts i).map fun r => (Node.relocateAll e r.1, r.2.relocate e) := by
  obtain ⟨position, rest⟩ := i
  cases texts with
  | nil => rfl
  | cons text more =>
    cases rest with
    | nil => rfl
    | cons t rest =>
      rw [Input.relocate, List.map_cons]
      unfold readToken
      dsimp only
      rw [Token.reads_relocate]
      cases reads : t.reads text with
      | false => rfl
      | true =>
        rw [if_pos rfl, if_pos rfl]
        split
        · rw [Token.toNodes_relocate fun k same => by cases same]
          rfl
        · have glued := glue_relocate reads joined readable.keeps
          rw [show (t.relocate e).stop = e.stop t.stop from rfl, glued]
          cases glue t.stop more rest with
          | none => rfl
          | some r =>
            simp only [Option.map_some]
            rw [Node.relocateAll_append, Node.relocateAll_cons (Node.not_drops rfl)]
            rfl

theorem readLeaf_relocate {test : Token → Option Label} {i : Input}
    (same : ∀ t, test (t.relocate e) = test t)
    (plain : ∀ t ∈ i.rest, ∀ label, test t = some label → ∀ k, label = .kind k → k.isExtra = false) :
    readLeaf test (i.relocate e) =
      (readLeaf test i).map fun r => (Node.relocateAll e r.1, r.2.relocate e) := by
  obtain ⟨position, rest⟩ := i
  cases rest with
  | nil => rfl
  | cons t rest =>
    rw [Input.relocate, List.map_cons]
    unfold readLeaf
    dsimp only
    rw [same]
    cases found : test t with
    | none => rfl
    | some label =>
      simp only [Option.map_some]
      rw [Token.toNodes_relocate (plain t List.mem_cons_self label found)]
      rfl

theorem attempt_relocate {i : Input} {result result' : Option (List Node × Input)}
    (same : result' = result.map fun r => (Node.relocateAll e r.1, r.2.relocate e)) :
    attempt (i.relocate e) result' = (attempt i result).relocate e := by
  rw [same]
  rfl

/-- What is read from relocated tokens is what is read from the tokens, relocated. -/
theorem read_relocate (tidies : ∀ s, (grammar s).isTidy = true) (fuel : Nat) (tidy : rule.isTidy = true)
    (operand : Node.Closed op) {i : Input} (readable : Readable e i) :
    read grammar fuel rule (Node.relocateAll e op) (i.relocate e) =
      (read grammar fuel rule op i).relocate e := by
  induction fuel generalizing rule op i with
  | zero => rfl
  | succ fuel ih =>
    -- what is left after a part of the rule, and what the part has given
    have onwards {rule : Rule S} {op nodes : List Node} {i next : Input} {reach : Nat}
        (whole : read grammar fuel rule op i = ⟨reach, some (nodes, next)⟩) (tidy : rule.isTidy = true)
        (operand : Node.Closed op) (readable : Readable e i) :
        Node.Closed nodes ∧ Readable e next := by
      obtain ⟨ts, split, derives⟩ := derives_of_read (congrArg Outcome.result whole)
      refine ⟨derives.closed tidies tidy (fun t ht => readable.proper t ?_) operand,
        readable.of_rest split⟩
      rw [split]
      exact List.mem_append_left _ ht
    cases rule with
    | empty => rfl
    | left => rfl
    | token texts => exact attempt_relocate (readToken_relocate tidy readable)
    | leaf text k =>
      refine attempt_relocate (readLeaf_relocate (fun t => rfl) fun t _ label found => ?_)
      simp only [Option.ite_none_right_eq_some, Option.some.injEq] at found
      exact found.2 ▸ plain_of_tidy tidy
    | name k =>
      refine attempt_relocate (readLeaf_relocate (fun t => rfl) fun t _ label found => ?_)
      simp only [Option.ite_none_right_eq_some, Option.some.injEq] at found
      exact found.2 ▸ plain_of_tidy tidy
    | literal =>
      refine attempt_relocate (readLeaf_relocate (fun t => rfl) fun t ht label found => ?_)
      exact plain_of_literalLabel (readable.proper t ht) found
    | ref s => exact ih (tidies s) operand readable
    | seq a b =>
      rw [isTidy, Bool.and_eq_true] at tidy
      simp only [read]
      rw [ih tidy.1 operand readable]
      rcases ha : read grammar fuel a op i with ⟨reach, _ | ⟨first, next⟩⟩
      · rfl
      · obtain ⟨_, further⟩ := onwards ha tidy.1 operand readable
        simp only [Outcome.relocate, Option.map_some]
        rw [ih tidy.2 operand further]
        rcases read grammar fuel b op next with ⟨reach', _ | ⟨second, last⟩⟩
        · rfl
        · simp only [Outcome.relocate, Option.map_some, Node.relocateAll_append]
    | alt a b =>
      rw [isTidy, Bool.and_eq_true] at tidy
      simp only [read]
      rw [ih tidy.1 operand readable, ih tidy.2 operand readable]
      rcases read grammar fuel a op i with ⟨reach, _ | ⟨first, next⟩⟩ <;> rfl
    | many r =>
      have inner : r.isTidy = true := tidy
      simp only [read]
      rw [ih inner operand readable]
      rcases hr : read grammar fuel r op i with ⟨reach, _ | ⟨first, next⟩⟩
      · rfl
      · obtain ⟨_, further⟩ := onwards hr inner operand readable
        simp only [Outcome.relocate, Option.map_some]
        rw [show (next.relocate e).position = next.position from rfl,
          show (i.relocate e).position = i.position from rfl]
        split
        · rfl
        · rw [ih tidy operand further]
          rcases read grammar fuel (.many r) op next with ⟨reach', _ | ⟨others, last⟩⟩
          · rfl
          · simp only [Outcome.relocate, Option.map_some, Node.relocateAll_append]
    | «unless» r =>
      have inner : r.isTidy = true := tidy
      simp only [read]
      rw [ih inner operand readable]
      rcases read grammar fuel r op i with ⟨reach, _ | ⟨first, next⟩⟩ <;> rfl
    | node k r =>
      rw [isTidy, Bool.and_eq_true, Bool.not_eq_true'] at tidy
      simp only [read]
      rw [ih tidy.2 operand readable]
      rcases hr : read grammar fuel r op i with ⟨reach, _ | ⟨first, next⟩⟩
      · rfl
      · obtain ⟨closed, _⟩ := onwards hr tidy.2 operand readable
        simp only [Outcome.relocate, Option.map_some, Node.relocateAll_wrap closed tidy.1]
    | field part r =>
      have inner : r.isTidy = true := tidy
      simp only [read]
      rw [ih inner operand readable]
      rcases read grammar fuel r op i with ⟨reach, _ | ⟨first, next⟩⟩
      · rfl
      · simp only [Outcome.relocate, Option.map_some, Node.relocateAll_assign]
    | chain base suffix =>
      rw [isTidy, Bool.and_eq_true] at tidy
      simp only [read]
      rw [ih tidy.1 operand readable]
      rcases hbase : read grammar fuel base op i with ⟨reach, _ | ⟨first, next⟩⟩
      · rfl
      · obtain ⟨closed, further⟩ := onwards hbase tidy.1 operand readable
        simp only [Outcome.relocate, Option.map_some]
        rw [ih tidy.2 closed further]
        rcases hsuffix : read grammar fuel suffix first next with ⟨reach', _ | ⟨longer, after⟩⟩
        · rfl
        · obtain ⟨longerClosed, rest⟩ := onwards hsuffix tidy.2 closed further
          simp only [Outcome.relocate, Option.map_some]
          rw [show (after.relocate e).position = after.position from rfl,
            show (next.relocate e).position = next.position from rfl]
          split
          · rfl
          · have more : (Rule.chain .left suffix).isTidy = true := by
              rw [isTidy, tidy.2]
              rfl
            rw [ih more longerClosed rest]
            rfl

end Rule

end MonoTap.Java

import MonoTap.Proofs.Outline
import MonoTap.Proofs.References

/-!
# What names denote

The walk over a callback finds what the rules of scopes say. Along the way from a name outwards the
rules meet the same names that the walk has declared when it comes to the name.
-/

set_option autoImplicit false

namespace MonoTap.Callback

open Java (Cursor Kind Node Role)
open Text (Source)

variable {source : Source} {x : String} {f g : Node → Effect} {n c m : Node} {ns : List Node}
  {items more : List Item}

/-! ### Cursors -/

mutual

/-- Cursors below further nodes around. -/
theorem cursors_append (ancestors more : List Node) (n : Node) :
    n.cursors (ancestors ++ more) =
      (n.cursors ancestors).map fun c => ⟨c.node, c.ancestors ++ more⟩ := by
  cases n with
  | mk label role start stop children =>
    rw [Node.cursors, Node.cursors, List.map_cons, ← List.cons_append, cursorsAll_append]

theorem cursorsAll_append (ancestors more ns : List Node) :
    Node.cursorsAll (ancestors ++ more) ns =
      (Node.cursorsAll ancestors ns).map fun c => ⟨c.node, c.ancestors ++ more⟩ := by
  cases ns with
  | nil => rfl
  | cons n ns =>
    rw [Node.cursorsAll, Node.cursorsAll, List.map_append, cursorsAll_append]
    split
    · rw [cursors_append]
    · rfl

end

theorem mem_cursorsAll {ancestors : List Node} {c : Cursor} :
    c ∈ Node.cursorsAll ancestors ns ↔ ∃ m ∈ ns, m.isNamed = true ∧ c ∈ m.cursors ancestors := by
  induction ns with
  | nil => simp [Node.cursorsAll]
  | cons n ns ih =>
    rw [Node.cursorsAll, List.mem_append, ih]
    by_cases named : n.isNamed = true <;> simp [named]

/-- A cursor goes to the node itself or into a named node inside. -/
theorem mem_cursors {c : Cursor} :
    c ∈ n.cursors [] ↔ c = ⟨n, []⟩ ∨
      ∃ m ∈ n.namedChildren, ∃ d ∈ m.cursors [], c = ⟨d.node, d.ancestors ++ [n]⟩ := by
  have inside : c ∈ n.cursors [] ↔ c = ⟨n, []⟩ ∨ c ∈ Node.cursorsAll [n] n.children := by
    cases n with
    | mk label role start stop children => rw [Node.cursors, List.mem_cons]; rfl
  have deeper (m : Node) : c ∈ m.cursors [n] ↔
      ∃ d ∈ m.cursors [], c = ⟨d.node, d.ancestors ++ [n]⟩ := by
    have below := cursors_append [] [n] m
    rw [List.nil_append] at below
    rw [below, List.mem_map]
    exact exists_congr fun d => and_congr_right fun _ => eq_comm
  rw [inside, mem_cursorsAll]
  apply or_congr_right
  constructor
  · rintro ⟨m, hm, named, hc⟩
    exact ⟨m, List.mem_filter.2 ⟨hm, named⟩, (deeper m).1 hc⟩
  · rintro ⟨m, hm, hc⟩
    obtain ⟨hm, named⟩ := List.mem_filter.1 hm
    exact ⟨m, hm, named, (deeper m).2 hc⟩

/-- The way from a cursor outwards ends at the node where the cursors begin. -/
theorem exists_path {c : Cursor} (hc : c ∈ n.cursors []) :
    (c.node = n ∧ c.ancestors = []) ∨ ∃ path, c.ancestors = path ++ [n] := by
  rcases mem_cursors.1 hc with rfl | ⟨m, _, d, _, rfl⟩
  · exact Or.inl ⟨rfl, rfl⟩
  · exact Or.inr ⟨d.ancestors, rfl⟩

theorem inCode_append (path : List Node) :
    InCode c (path ++ [m] ++ [n]) ↔ InCode c (path ++ [m]) ∧ .part m ∈ layout n := by
  induction path generalizing c with
  | nil => simp [InCode]
  | cons d path ih =>
    rw [List.cons_append, List.cons_append, InCode, InCode, ih, and_assoc]

theorem denotes_append {inherits : Node → String → Bool} (plain : inherits n x = false)
    (outside : Option Target) (path : List Node) :
    denotes? source inherits x outside c (path ++ [m] ++ [n]) =
      denotes? source inherits x ((lastNamed source x (inView n m.start)).or outside) c
        (path ++ [m]) := by
  induction path generalizing c with
  | nil =>
    simp only [List.nil_append, List.singleton_append, denotes?]
    cases lastNamed source x (inView n m.start) <;> simp [plain]
  | cons d path ih =>
    rw [List.cons_append, List.cons_append, denotes?, denotes?, ih]

/-- What a cursor inside a part sees is what it sees in the part, if the names in view of the part are
what is outside. -/
theorem refers_inside {inherits : Node → String → Bool} (plain : inherits n x = false)
    (outside : Option Target) {d : Cursor} (hd : d ∈ m.cursors []) :
    (Refers ⟨d.node, d.ancestors ++ [n]⟩ ↔ Refers d ∧ .part m ∈ layout n) ∧
      denotes? source inherits x outside d.node (d.ancestors ++ [n]) =
        denotes? source inherits x ((lastNamed source x (inView n m.start)).or outside) d.node
          d.ancestors := by
  have split : InCode d.node (d.ancestors ++ [n]) ↔ InCode d.node d.ancestors ∧ .part m ∈ layout n := by
    rcases exists_path hd with ⟨here, bare⟩ | ⟨path, same⟩
    · simp [bare, here, InCode]
    · rw [same]
      exact inCode_append path
  constructor
  · constructor
    · intro h
      have inCode := split.1 h.inCode
      exact ⟨⟨h.name, inCode.1⟩, inCode.2⟩
    · rintro ⟨h, part⟩
      exact ⟨h.name, split.2 ⟨h.inCode, part⟩⟩
  · rcases exists_path hd with ⟨here, bare⟩ | ⟨path, same⟩
    · rw [bare, here, List.nil_append, denotes?, denotes?]
      cases lastNamed source x (inView n m.start) <;> simp [plain, denotes?]
    · rw [same]
      exact denotes_append plain outside path

/-! ### What cursors see -/

/-- The effect that a node has by the rules of scopes: what it makes visible, and the names in code in
it, each with what it denotes. -/
def sense (source : Source) (inherits : Node → String → Bool) (x : String) (n : Node) : Effect where
  declared := lastNamed source x (declares n)
  mentions o := { k | ∃ c ∈ n.cursors [], Refers c ∧ c.node.text source = x ∧
    k = (c.node.start, denotes? source inherits x o c.node c.ancestors) }

/-- What items mention is mentioned by one of the parts, in view of the names before it. -/
theorem mem_mentions_along (h : Declares source x f (partsOf items)) {outside : Option Target}
    {k : Nat × Option Target} :
    k ∈ (along source x f items).mentions outside ↔
      ∃ before c after, items = before ++ .part c :: after ∧
        k ∈ (f c).mentions ((lastNamed source x (before.flatMap Item.names)).or outside) := by
  induction items generalizing outside with
  | nil => simp [along]
  | cons item items ih =>
    obtain ⟨here, later⟩ := h.of_cons
    have both : along source x f (item :: items) =
        item.effect source x f * along source x f items := List.prod_cons
    rw [both, Effect.mul_mentions, Set.mem_union, declared_effect here, ih later]
    constructor
    · rintro (first | ⟨before, c, after, rfl, mention⟩)
      · cases item with
        | name m => exact first.elim
        | part c => exact ⟨[], c, items, rfl, first⟩
      · refine ⟨item :: before, c, after, rfl, ?_⟩
        rwa [List.flatMap_cons, lastNamed_append, Option.or_assoc]
    · rintro ⟨before, c, after, split, mention⟩
      rcases List.cons_eq_append_iff.1 split with ⟨rfl, same⟩ | ⟨rest, rfl, rfl⟩
      · cases same
        exact Or.inl mention
      · refine Or.inr ⟨rest, c, after, rfl, ?_⟩
        rwa [List.flatMap_cons, lastNamed_append, Option.or_assoc] at mention

theorem placed_pairwise {P : Nat → Nat → Prop} {lo hi : Nat} (h : Java.Placed P lo ns hi) :
    ns.Pairwise fun a b => a.stop ≤ b.start := by
  induction h with
  | nil => exact .nil
  | cons after inside covers rest _ ih =>
    exact List.pairwise_cons.2 ⟨fun b hb => (rest.of_mem hb).1, ih⟩

section

variable {text : List Char}

/-- Nodes side by side begin at different offsets. -/
theorem eq_of_start (h : n.Belongs text) (hc : c ∈ n.children) (hm : m ∈ n.children)
    (same : c.start = m.start) : c = m := by
  have wideC := (h.child hc).spans.wide
  have wideM := (h.child hm).spans.wide
  rcases h.placed.apart hc hm with rfl | order | order
  · rfl
  · omega
  · omega

theorem nodup_parts (h : n.Belongs text) : (partsOf (layout n)).Nodup := by
  have distinct : n.children.Nodup := by
    apply (placed_pairwise h.placed).imp_of_mem
    intro a b ha _ order same
    have wide := (h.child ha).spans.wide
    subst same
    omega
  obtain ⟨l, perm, sub⟩ := subperm_layout n
  exact perm.nodup_iff.1 (distinct.sublist sub)

/-- The names in view of a part are those that come before it. -/
theorem inView_of_layout (h : n.Belongs text) {before after : List Item}
    (split : layout n = before ++ .part c :: after) :
    inView n c.start = before.flatMap Item.names := by
  have distinct := nodup_parts h
  have inside : ∀ d, .part d ∈ layout n → d ∈ n.children := fun d => mem_children_of_part
  rw [split] at distinct inside
  have others : ∀ item ∈ before, item.isBefore c.start = true := by
    intro item mem
    cases item with
    | name m => rfl
    | part d =>
      rw [Item.isBefore, bne_iff_ne]
      intro same
      have equal := eq_of_start h (inside d (List.mem_append_left _ mem))
        (inside c (List.mem_append_right _ List.mem_cons_self)) same
      rw [partsOf_append] at distinct
      exact (List.nodup_append.1 distinct).2.2 d (mem_partsOf.2 mem) c List.mem_cons_self equal
  rw [inView, split, List.takeWhile_append_of_pos others, List.takeWhile_cons_of_neg, List.append_nil]
  simp [Item.isBefore]

/-- Nothing is referred to in a node that is none. -/
theorem sense_of_not_isNamed {inherits : Node → String → Bool} (h : n.Belongs text)
    (token : n.isNamed = false) (outside : Option Target) :
    (sense source inherits x n).mentions outside = ∅ := by
  have childless : n.children = [] := by
    cases children : n.children with
    | nil => rfl
    | cons d ds =>
      obtain ⟨k, r, label, _⟩ := h.made.inside (children ▸ List.cons_ne_nil d ds)
      rw [Node.isNamed, label] at token
      cases token
  apply Set.eq_empty_of_forall_notMem
  rintro k ⟨c, hc, refers, _⟩
  rcases mem_cursors.1 hc with rfl | ⟨m, hm, _⟩
  · have name := refers.name
    rw [isReference] at name
    split at name
    · cases name
    · rw [Node.is, beq_iff_eq] at name
      rw [Node.isNamed, name] at token
      cases token
  · rw [Node.namedChildren, childless] at hm
    cases hm

theorem mem_sense {inherits : Node → String → Bool} (plain : inherits n x = false)
    {outside : Option Target} {k : Nat × Option Target} :
    k ∈ (sense source inherits x n).mentions outside ↔
      (isReference n = true ∧ n.text source = x ∧ k = (n.start, outside)) ∨
      ∃ m ∈ n.namedChildren, .part m ∈ layout n ∧ k ∈ (sense source inherits x m).mentions
        ((lastNamed source x (inView n m.start)).or outside) := by
  constructor
  · rintro ⟨c, hc, refers, named, rfl⟩
    rcases mem_cursors.1 hc with rfl | ⟨m, hm, d, hd, rfl⟩
    · exact Or.inl ⟨refers.name, named, rfl⟩
    · obtain ⟨inside, denotes⟩ := @refers_inside source x n m inherits plain outside d hd
      obtain ⟨refers, part⟩ := inside.1 refers
      exact Or.inr ⟨m, hm, part, d, hd, refers, named, by rw [denotes]⟩
  · rintro (⟨name, named, rfl⟩ | ⟨m, hm, part, d, hd, refers, named, rfl⟩)
    · exact ⟨⟨n, []⟩, mem_cursors.2 (Or.inl rfl), ⟨name, True.intro⟩, named, rfl⟩
    · obtain ⟨inside, denotes⟩ := @refers_inside source x n m inherits plain outside d hd
      exact ⟨⟨d.node, d.ancestors ++ [n]⟩, mem_cursors.2 (Or.inr ⟨m, hm, d, hd, rfl⟩),
        inside.2 ⟨refers, part⟩, named, by rw [denotes]⟩

/-- By the rules of scopes a node has the effect that its layout has. -/
theorem sense_eq_outline {inherits : Node → String → Bool} (h : n.Belongs text)
    (plain : inherits n x = false) :
    sense source inherits x n = outline source x (sense source inherits x) n := by
  have all (items : List Item) : Declares source x (sense source inherits x) (partsOf items) :=
    fun _ _ => rfl
  have inner : (along source x (sense source inherits x) (layout n)).declared =
      lastNamed source x (introduced n) := declared_along (all _)
  have own : (if isReference n = true then mentioning source x n else 1).declared = none := by
    split <;> rfl
  ext1
  · rw [outline, Effect.mul_declared, own, Option.or_none]
    show lastNamed source x (declares n) = _
    rw [declares_eq]
    split
    · rfl
    · exact inner.symm
  · funext outside
    ext k
    have boxed : (if isScope n = true then (along source x (sense source inherits x) (layout n)).scope
        else along source x (sense source inherits x) (layout n)).mentions outside =
        (along source x (sense source inherits x) (layout n)).mentions outside := by
      split <;> rfl
    rw [outline, Effect.mul_mentions, own, Option.none_or, boxed, Set.mem_union,
      mem_mentions_along (all _), mem_sense plain]
    apply or_congr
    · by_cases name : isReference n = true <;> by_cases same : n.text source = x <;>
        simp [name, same, mentioning]
    · constructor
      · rintro ⟨m, _, part, mention⟩
        obtain ⟨before, after, split⟩ := List.append_of_mem part
        rw [inView_of_layout h split] at mention
        exact ⟨before, m, after, split, mention⟩
      · rintro ⟨before, m, after, split, mention⟩
        have part : .part m ∈ layout n := split ▸ List.mem_append_right _ List.mem_cons_self
        have child := mem_children_of_part part
        rw [← inView_of_layout h split] at mention
        cases named : m.isNamed with
        | true => exact ⟨m, List.mem_filter.2 ⟨child, named⟩, part, mention⟩
        | false =>
          rw [sense_of_not_isNamed (h.child child) named] at mention
          cases mention

theorem outline_congr (same : ∀ c, .part c ∈ layout n → f c = g c) :
    outline source x f n = outline source x g n := by
  have parts : along source x f (layout n) = along source x g (layout n) := by
    rw [along, along]
    congr 1
    apply List.map_congr_left
    intro item mem
    cases item with
    | name m => rfl
    | part c => exact same c mem
  rw [outline, outline, parts]

/-- Where it does not depart from the rules of scopes, a walk does what the rules say. -/
theorem coded_eq_sense {inherits : Node → String → Bool} (h : n.Belongs text)
    (plain : ∀ m ∈ n.preorder, departs source inherits x m = false) :
    coded source x n = sense source inherits x n := by
  generalize hsize : sizeOf n = size
  induction size using Nat.strongRecOn generalizing n with
  | ind size ih =>
    have inside : ∀ c ∈ n.children, coded source x c = sense source inherits x c := by
      intro c hc
      apply ih _ (hsize ▸ Node.sizeOf_lt_of_mem_children hc) (h.child hc) _ rfl
      intro m hm
      exact plain m (Node.mem_preorder_of_mem_children hc hm)
    have here := plain n n.self_mem_preorder
    have noInherit : inherits n x = false := by
      rw [departs, Bool.or_eq_false_iff, Bool.or_eq_false_iff] at here
      exact here.1.1
    have parts : Declares source x (coded source x) n.children := by
      intro c hc
      rw [inside c hc]
      rfl
    rw [coded_eq_outline here parts, sense_eq_outline h noInherit]
    exact outline_congr fun c part => inside c (mem_children_of_part part)

end

/-! ### One name in a resolution -/

namespace Resolution

variable {r : Resolution} {target : Nat → Option Target} {events : List ScopeEvent}

/-- What a name denotes in each open scope of a resolution, given what its bindings stand for. -/
def view (r : Resolution) (target : Nat → Option Target) (x : String) : View :=
  r.scopes.map fun scope => (scope.find? (·.name == x)).bind fun b => target b.id

/-- What bindings stand for, by the events to come: those declared by them stand for the places where
they are declared, and those known already stand for something. -/
structure Knows (target : Nat → Option Target) (r : Resolution) (events : List ScopeEvent) :
    Prop where
  fresh : ∀ id, r.nextId ≤ id → target id = (r.declaredAt? events id).map .declared
  old : r.All fun b => (target b.id).isSome = true

theorem Knows.run {e : ScopeEvent} (h : Knows target r (e :: events)) :
    Knows target (r.run e) events := by
  have later : ∀ id, (r.run e).nextId ≤ id →
      r.declaredAt? (e :: events) id = (r.run e).declaredAt? events id := by
    intro id le
    cases e with
    | enter | leave | mention => rfl
    | declare name type offset =>
      rw [declaredAt?]
      apply if_neg
      intro taken
      rw [Bool.and_eq_true, beq_iff_eq, Bool.not_eq_true'] at taken
      rw [Resolution.run] at le
      split at le
      · rename_i bare
        rw [bare] at taken
        cases taken.1
      · have : r.nextId + 1 ≤ id := le
        omega
  constructor
  · intro id le
    rw [← later id le]
    exact h.fresh id (Nat.le_trans (nextId_le_run r e) le)
  · apply h.old.run
    intro next b hb
    cases e with
    | enter | leave => simp [Resolution.run] at next
    | mention name offset =>
      rw [Resolution.run] at next
      split at next <;> simp at next
    | declare name type offset =>
      have taken : r.declaredAt? (.declare name type offset :: events) r.nextId = some offset := by
        rw [declaredAt?]
        apply if_pos
        rw [beq_self_eq_true, Bool.and_true]
        cases scopes : r.scopes with
        | nil =>
          simp [Resolution.run, scopes] at next
        | cons scope outer => rfl
      rw [hb, h.fresh _ (Nat.le_refl _), taken]
      rfl

theorem Knows.view_run {e : ScopeEvent} (h : Knows target r (e :: events)) :
    (r.run e).view target x = (r.view target x).run x e := by
  cases e with
  | enter => rfl
  | leave => exact List.map_tail
  | mention name offset =>
    rw [Resolution.run]
    split <;> rfl
  | declare name type offset =>
    rw [Resolution.run, view, view]
    cases scopes : r.scopes with
    | nil =>
      simp [scopes, View.run]
    | cons scope outer =>
      have stands : target r.nextId = some (.declared offset) := by
        rw [h.fresh _ (Nat.le_refl _), declaredAt?, scopes]
        simp
      simp only [List.map_cons, View.run, List.find?_cons]
      by_cases same : (name == x) = true <;> simp [same, stands]

theorem Knows.denoted_view (h : Knows target r events) :
    (r.view target x).denoted = (r.lookup? x).bind fun b => target b.id := by
  have old := h.old.scopes
  rw [view, lookup?, View.denoted]
  generalize r.scopes = scopes at old
  induction scopes with
  | nil => rfl
  | cons scope outer ih =>
    have ih := ih fun s hs => old s (List.mem_cons_of_mem _ hs)
    rw [List.map_cons, List.findSome?_cons, List.findSome?_cons]
    cases found : scope.find? (·.name == x) with
    | none => exact ih
    | some b =>
      have stands := old scope List.mem_cons_self b (List.mem_of_find?_eq_some found)
      obtain ⟨t, ht⟩ := Option.isSome_iff_exists.1 stands
      simp [ht]

/-- The names that are found to denote something are the mentions that do. -/
theorem Knows.mem_occurrences (h : Knows target r events) {offset : Nat} {t : Target} :
    (∃ o ∈ (events.foldl Resolution.run r).occurrences, o.offset = offset ∧ o.binding.name = x ∧
      target o.binding.id = some t) ↔
    (∃ o ∈ r.occurrences, o.offset = offset ∧ o.binding.name = x ∧
      target o.binding.id = some t) ∨
    (offset, some t) ∈ View.mentions x (r.view target x) events := by
  induction events generalizing r with
  | nil => simp [View.mentions]
  | cons e events ih =>
    rw [List.foldl_cons, ih h.run, View.mentions, List.mem_append, ← or_assoc, h.view_run]
    apply or_congr_left
    cases e with
    | enter | leave => simp [Resolution.run, View.mention?]
    | declare name type at_ =>
      rw [Resolution.run]
      split <;> simp [View.mention?]
    | mention name at_ =>
      rw [Resolution.run, View.mention?, h.denoted_view]
      by_cases same : name = x
      · subst same
        cases found : r.lookup? name with
        | none => simp
        | some b =>
          obtain ⟨_, _, _, named⟩ := mem_of_lookup? found
          simp only [List.mem_cons, exists_eq_or_imp, named, true_and, beq_self_eq_true, ↓reduceIte,
            Option.bind_some, Option.toList_some, List.mem_cons, List.not_mem_nil, or_false,
            Prod.mk.injEq]
          rw [or_comm, eq_comm (a := at_), eq_comm (a := target b.id)]
      · have other : (name == x) = false := beq_false_of_ne same
        cases found : r.lookup? name with
        | none => simp [other]
        | some b =>
          obtain ⟨_, _, _, named⟩ := mem_of_lookup? found
          simp [other, named, same]

end Resolution

section

variable {parameters : List (String × Option String)} {block : Node} {text : List Char}
  {inherits : Node → String → Bool}

/-- What a binding in a callback stands for, by its number. -/
def targetOf (source : Source) (parameters : List (String × Option String)) (block : Node)
    (id : Nat) : Option Target :=
  if id ≤ parameters.length then some (.parameter (id - 1))
  else (declaredIn? source parameters block id).map .declared

theorem knows_start : Resolution.Knows (targetOf source parameters block)
    (Resolution.start parameters) (scopeEvents source block) := by
  have next : (Resolution.start parameters).nextId = parameters.length + 1 := by
    simp [Resolution.start, Resolution.parameterBindings]
  constructor
  · intro id le
    rw [targetOf, if_neg (by omega)]
    rfl
  · apply (Resolution.numbered_start parameters).bindings.imp
    intro b hb
    rw [targetOf, if_pos (by omega)]
    rfl

/-- At the start a name denotes the last parameter of this name. -/
theorem view_start : (Resolution.start parameters).view (targetOf source parameters block) x =
    [parameterNamed parameters x] := by
  have found : ((Resolution.parameterBindings parameters).reverse.find? (·.name == x)).bind
      (fun b => targetOf source parameters block b.id) = parameterNamed parameters x := by
    rw [Resolution.parameterBindings, ← List.map_reverse, List.find?_map, Option.bind_map,
      parameterNamed]
    show (parameters.zipIdx.reverse.find? (·.1.1 == x)).bind _ = _
    cases hit : parameters.zipIdx.reverse.find? (·.1.1 == x) with
    | none => rfl
    | some p =>
      obtain ⟨⟨name, type⟩, i⟩ := p
      have bound := (List.mem_zipIdx (List.mem_reverse.1 (List.mem_of_find?_eq_some hit))).2.1
      have position : i + 1 ≤ parameters.length := by omega
      exact if_pos position
  rw [← found]
  rfl

/-- The names that are found to denote something in a callback are those that do by the rules of
scopes. -/
theorem mem_occurrences_ofBody (h : block.Belongs text) (role : block.role ≠ some .declarator)
    (plain : ∀ n ∈ block.preorder, departs source inherits x n = false) {offset : Nat} {t : Target} :
    (∃ o ∈ (Resolution.ofBody source parameters block).occurrences, o.offset = offset ∧
      o.binding.name = x ∧ targetOf source parameters block o.binding.id = some t) ↔
    ∃ c ∈ block.cursors [], Refers c ∧ c.node.text source = x ∧ c.node.start = offset ∧
      denotes? source inherits x (parameterNamed parameters x) c.node c.ancestors = some t := by
  rw [Resolution.ofBody, knows_start.mem_occurrences, view_start,
    (hasEffect_scopeEvents source x block).mentions, ← coded_of_role role, coded_eq_sense h plain]
  constructor
  · rintro (⟨o, ho, _⟩ | ⟨c, hc, refers, named, same⟩)
    · cases ho
    · obtain ⟨rfl, denoted⟩ := Prod.mk.inj same
      refine ⟨c, hc, refers, named, rfl, ?_⟩
      simpa using denoted.symm
  · rintro ⟨c, hc, refers, named, rfl, denoted⟩
    refine Or.inr ⟨c, hc, refers, named, ?_⟩
    simp [denoted]

/-! ### Names by their offsets -/

/-- Two identifiers do not begin at one offset. -/
theorem identifiers_pairwise (h : block.Belongs text) :
    block.preorder.Pairwise fun a b => a.is .identifier = true → a.start < b.start := by
  rw [Node.preorder_eq]
  have apart := List.pairwise_cons.2 ⟨fun b (hb : b ∈ Node.preorderAll block.children) =>
    Or.inl (b := block.stop ≤ b.start) hb, h.placed.pairwise_preorder⟩
  apply apart.imp_of_mem
  intro a b ha _ order name
  rw [← Node.preorder_eq] at ha
  have belongs := h.inside ha
  rcases order with inside | after
  · rw [belongs.identifier_leaf name] at inside
    cases inside
  · have wide := belongs.spans.wide
    omega

theorem eq_of_identifiers {α : Type} {l : List α} {node : α → Node}
    (h : l.Pairwise fun a b => (node a).is .identifier = true → (node a).start < (node b).start)
    {a b : α} (ha : a ∈ l) (hb : b ∈ l) (nameA : (node a).is .identifier = true)
    (nameB : (node b).is .identifier = true) (same : (node a).start = (node b).start) : a = b := by
  induction h with
  | nil => cases ha
  | cons first _ ih =>
    rcases List.mem_cons.1 ha with rfl | laterA
    · rcases List.mem_cons.1 hb with rfl | laterB
      · rfl
      · have := first b laterB nameA
        omega
    · rcases List.mem_cons.1 hb with rfl | laterB
      · have := first a laterA nameB
        omega
      · exact ih laterA laterB

/-- A cursor at an identifier is known by its offset. -/
theorem eq_of_cursors (h : block.Belongs text) {a b : Cursor} (ha : a ∈ block.cursors [])
    (hb : b ∈ block.cursors []) (nameA : a.node.is .identifier = true)
    (nameB : b.node.is .identifier = true) (same : a.node.start = b.node.start) : a = b := by
  have order := (identifiers_pairwise h).sublist (Node.map_node_cursors [] block)
  exact eq_of_identifiers (List.pairwise_map.1 order) ha hb nameA nameB same

/-- What a name is found to denote stands for something, and the name is that of the identifier which
begins there. -/
theorem name_of_mem_occurrences {o : Occurrence}
    (ho : o ∈ (Resolution.ofBody source parameters block).occurrences) :
    (∃ t, targetOf source parameters block o.binding.id = some t) ∧
      ∃ m ∈ block.preorder, m.is .identifier = true ∧ m.text source = o.binding.name ∧
        m.start = o.offset := by
  constructor
  · rcases parameter_or_declared ho with ⟨_, le⟩ | declared
    · exact ⟨_, if_pos le⟩
    · obtain ⟨offset, declared⟩ := Option.isSome_iff_exists.1 declared
      rw [targetOf]
      split
      · exact ⟨_, rfl⟩
      · exact ⟨_, congrArg _ declared⟩
  · rcases Resolution.mem_of_mem_occurrences ho with known | mentioned
    · cases known
    · exact namesIn_of_mem_scopeEvents mentioned

/-- A binding with the number of a parameter has its name. -/
def NamesParameter (parameters : List (String × Option String)) (b : Binding) : Prop :=
  b.id ≤ parameters.length → parameters[b.id - 1]?.map Prod.fst = some b.name

theorem namesParameter_foldl {r : Resolution} (h : r.All (NamesParameter parameters))
    (high : parameters.length < r.nextId) (events : List ScopeEvent) :
    (events.foldl Resolution.run r).All (NamesParameter parameters) := by
  induction events generalizing r with
  | nil => exact h
  | cons e events ih =>
    apply ih
    · apply h.run
      intro _ b fresh small
      omega
    · exact Nat.lt_of_lt_of_le high (Resolution.nextId_le_run r e)

/-- The parameters of a callback keep their names. -/
theorem name_of_parameter {o : Occurrence}
    (ho : o ∈ (Resolution.ofBody source parameters block).occurrences) :
    NamesParameter parameters o.binding := by
  have atStart : (Resolution.start parameters).All (NamesParameter parameters) := by
    constructor
    · intro scope hscope b hb _
      rw [Resolution.start] at hscope
      cases List.mem_singleton.1 hscope
      rw [List.mem_reverse, Resolution.parameterBindings] at hb
      obtain ⟨⟨⟨name, type⟩, i⟩, hp, rfl⟩ := List.mem_map.1 hb
      have found : parameters[i]? = some (name, type) := by
        obtain ⟨bound, same⟩ := List.mem_zipIdx' hp
        rw [same]
        exact List.getElem?_eq_getElem bound
      simp [found]
    · intro o ho
      cases ho
  have high : parameters.length < (Resolution.start parameters).nextId := by
    simp [Resolution.start, Resolution.parameterBindings]
  exact (namesParameter_foldl atStart high (scopeEvents source block)).occurrences o ho

/-- A name in code denotes what the rules of scopes select, and a name elsewhere denotes nothing. -/
theorem bindingAt_eq_denotes (h : block.Belongs text) (role : block.role ≠ some .declarator)
    (plain : ∀ n ∈ block.preorder, departs source inherits x n = false) {c : Cursor}
    (hc : c ∈ block.cursors []) (name : c.node.is .identifier = true) (same : c.node.text source = x) :
    (Refers c → ((Resolution.ofBody source parameters block).bindingAt? c.node.start).map
        (fun b => targetOf source parameters block b.id) =
      (denotes? source inherits x (parameterNamed parameters x) c.node c.ancestors).map some) ∧
    (¬ Refers c →
      (Resolution.ofBody source parameters block).bindingAt? c.node.start = none) := by
  have known := @mem_occurrences_ofBody source x parameters block text inherits h role plain
  -- what is found where the name begins is found for this cursor
  have found {b : Binding}
      (hb : (Resolution.ofBody source parameters block).bindingAt? c.node.start = some b) :
      ∃ t, targetOf source parameters block b.id = some t ∧ Refers c ∧
        denotes? source inherits x (parameterNamed parameters x) c.node c.ancestors = some t := by
    obtain ⟨o, hit, rfl⟩ := Option.map_eq_some_iff.1 hb
    have offset : o.offset = c.node.start := by
      have := List.find?_some (p := fun o : Occurrence => o.offset == c.node.start) hit
      exact eq_of_beq this
    have ho := List.mem_of_find?_eq_some hit
    obtain ⟨⟨t, ht⟩, m, hm, nameM, textM, startM⟩ := name_of_mem_occurrences ho
    have here : m = c.node := by
      have inside := (Node.map_node_cursors [] block).subset (List.mem_map.2 ⟨c, hc, rfl⟩)
      exact @eq_of_identifiers Node _ id (identifiers_pairwise h) _ _ hm inside nameM name
        (startM.trans offset)
    have named : o.binding.name = x := by rw [← textM, here, same]
    obtain ⟨d, hd, refers, _, startD, denoted⟩ := known.1 ⟨o, ho, offset, named, ht⟩
    have nameD : d.node.is .identifier = true := by
      have reference := refers.name
      rw [isReference] at reference
      split at reference
      · cases reference
      · exact reference
    cases eq_of_cursors h hd hc nameD name startD
    exact ⟨t, ht, refers, denoted⟩
  constructor
  · intro refers
    cases hb : (Resolution.ofBody source parameters block).bindingAt? c.node.start with
    | some b =>
      obtain ⟨t, ht, _, denoted⟩ := found hb
      rw [Option.map_some, ht, denoted, Option.map_some]
    | none =>
      cases denoted : denotes? source inherits x (parameterNamed parameters x) c.node c.ancestors with
      | none => rfl
      | some t =>
        obtain ⟨o, ho, offset, _⟩ := known.2 ⟨c, hc, refers, same, rfl, denoted⟩
        rw [Resolution.bindingAt?, Option.map_eq_none_iff, List.find?_eq_none] at hb
        exact (hb o ho (beq_iff_eq.2 offset)).elim
  · intro elsewhere
    cases hb : (Resolution.ofBody source parameters block).bindingAt? c.node.start with
    | none => rfl
    | some b =>
      obtain ⟨_, _, refers, _⟩ := found hb
      exact (elsewhere refers).elim

/-- Only the parameter at a position stands for it. -/
theorem id_of_targetOf {id i : Nat} (positive : 0 < id)
    (h : targetOf source parameters block id = some (.parameter i)) : id = i + 1 := by
  rw [targetOf] at h
  split at h
  · have same : id - 1 = i := Target.parameter.inj (Option.some.inj h)
    omega
  · obtain ⟨offset, _, other⟩ := Option.map_eq_some_iff.1 h
    cases other

/-- A parameter is mentioned in a range of bytes if a name there denotes it by the rules of scopes. -/
theorem mem_referencesIn_iff_denotes (h : block.Belongs text) (role : block.role ≠ some .declarator)
    (plain : ∀ n ∈ block.preorder, departs source inherits x n = false) {i : Nat}
    (named : parameters[i]?.map Prod.fst = some x) (start stop : Nat) :
    i + 1 ∈ (Resolution.ofBody source parameters block).referencesIn start stop ↔
      ∃ c ∈ block.cursors [], Refers c ∧ c.node.text source = x ∧ start ≤ c.node.start ∧
        c.node.start < stop ∧ denotes? source inherits x (parameterNamed parameters x) c.node
          c.ancestors = some (.parameter i) := by
  have bound : i < parameters.length := by
    obtain ⟨p, found, _⟩ := Option.map_eq_some_iff.1 named
    exact (List.getElem?_eq_some_iff.1 found).1
  have known := @mem_occurrences_ofBody source x parameters block text inherits h role plain
  have stands : targetOf source parameters block (i + 1) = some (.parameter i) := if_pos bound
  rw [mem_referencesIn]
  constructor
  · rintro ⟨o, ho, low, high, id⟩
    have sameName := name_of_parameter ho (by omega)
    rw [id, Nat.add_sub_cancel, named, Option.some.injEq] at sameName
    obtain ⟨c, hc, refers, text, offset, denoted⟩ :=
      known.1 ⟨o, ho, rfl, sameName.symm, id ▸ stands⟩
    exact ⟨c, hc, refers, text, offset ▸ low, offset ▸ high, denoted⟩
  · rintro ⟨c, hc, refers, text, low, high, denoted⟩
    obtain ⟨o, ho, offset, _, target⟩ := known.2 ⟨c, hc, refers, text, rfl, denoted⟩
    have numbered := (Resolution.numbered_start parameters).foldl (scopeEvents source block)
    have positive := (numbered.bindings.occurrences o ho).1
    exact ⟨o, ho, offset ▸ low, offset ▸ high, id_of_targetOf positive target⟩

end

end MonoTap.Callback

namespace MonoTap

open Callback (Refers denotes? departs parameterNamed targetOf)
open Java (CompilationUnit Cursor Node)

theorem parameters_of_site {u : CompilationUnit} {file : String} {call : Cursor}
    {parameters : List (String × Option String)} {block : Node} {site : CallSite}
    (h : IsSite u file call parameters block site) {p : Callback.Binding}
    (hp : p ∈ [site.parameters.value, site.parameters.error]) :
    ∃ i, p.id = i + 1 ∧ parameters[i]?.map Prod.fst = some p.name := by
  have two := length_of_callbackParts h.parts
  have each (i : Nat) (bound : i < parameters.length) :
      parameters[i]?.map Prod.fst = some (parameterAt parameters i).name := by
    rw [parameterAt, List.getElem?_eq_getElem bound]
    rfl
  rw [h.same] at hp
  rcases List.mem_cons.1 hp with rfl | hp
  · exact ⟨0, id_parameterAt parameters 0, each 0 (by omega)⟩
  · cases List.mem_singleton.1 hp
    exact ⟨1, id_parameterAt parameters 1, each 1 (by omega)⟩

/-- In the body of a callback, as long as the walk does not depart from the rules of scopes about a
name, each name in code that has this text is found to denote what the rules select: a declaration in
the body, a parameter, or nothing in the callback. Names elsewhere denote nothing. A statement has a
parameter of this name among its references just when a name in it denotes this parameter. -/
theorem callback_names_denote (inherits : Node → String → Bool) (file text x : String) :
    let u := CompilationUnit.ofString text
    u.hasSyntaxErrors = false → ∀ call parameters block site,
      IsSite u file call parameters block site →
      (∀ n ∈ block.preorder, departs u.source inherits x n = false) →
      let denoted (c : Cursor) :=
        denotes? u.source inherits x (parameterNamed parameters x) c.node c.ancestors
      (∀ c ∈ block.cursors [], c.node.is .identifier = true → c.node.text u.source = x →
        (Refers c → ((scopeOf u parameters block).bindingAt? c.node.start).map
          (fun b => targetOf u.source parameters block b.id) = (denoted c).map some) ∧
        (¬ Refers c → (scopeOf u parameters block).bindingAt? c.node.start = none)) ∧
      ∀ s ∈ site.arena.statements, ∀ p ∈ [site.parameters.value, site.parameters.error], p.name = x →
        (p.id ∈ s.references ↔ ∃ c ∈ block.cursors [], Refers c ∧ c.node.text u.source = x ∧
          s.start ≤ c.node.start ∧ c.node.start < s.stop ∧
          denoted c = some (.parameter (p.id - 1))) := by
  intro u clean call parameters block site isSite plain denoted
  have belongs : block.Belongs text.toList := isSite.belongs clean
  have role : block.role ≠ some .declarator := by
    rw [Node.role_of_child? (callbackParts_eq_ok isSite.parts).1]
    decide
  constructor
  · intro c hc name same
    exact Callback.bindingAt_eq_denotes belongs role plain hc name same
  · intro s hs p hp name
    obtain ⟨i, id, named⟩ := parameters_of_site isSite hp
    rw [name] at named
    rw [isSite.same] at hs
    rw [Callback.references_of_mem_statementsFrom hs, id, Nat.add_sub_cancel]
    exact Callback.mem_referencesIn_iff_denotes belongs role plain named s.start s.stop

/-- A callback with a lambda whose parameter has the name of a parameter of the callback. -/
def shadowedText : String :=
  "import reactor.core.publisher.*;class C\x7b\x7bm.doAfterSuccessOrError((A v,B e)->" ++
    "\x7bg(v);F f=v->h(v,e);\x7d);\x7d\x7d"

set_option maxRecDepth 100000 in
theorem read_shadowedText :
    let u := CompilationUnit.ofString shadowedText
    u.hasSyntaxErrors = false ∧
      ((eligibleCalls u).any fun call =>
        (callbackParts u.source (callbackOf call.node)).toOption.any fun parts =>
          parts.2.preorder.all fun n => !departs u.source (fun _ _ => false) "v" n) = true := by
  rw [CompilationUnit.ofString_eq_ofCharsOf]
  decide +kernel

theorem callback_names_denote_of_shadowed :
    let u := CompilationUnit.ofString shadowedText
    u.hasSyntaxErrors = false ∧ ∃ call parameters block site,
      IsSite u "C.java" call parameters block site ∧
      (∀ n ∈ block.preorder, departs u.source (fun _ _ => false) "v" n = false) ∧
      let denoted (c : Cursor) := denotes? u.source (fun _ _ => false) "v"
        (parameterNamed parameters "v") c.node c.ancestors
      (∀ c ∈ block.cursors [], c.node.is .identifier = true → c.node.text u.source = "v" →
        (Refers c → ((scopeOf u parameters block).bindingAt? c.node.start).map
          (fun b => targetOf u.source parameters block b.id) = (denoted c).map some) ∧
        (¬ Refers c → (scopeOf u parameters block).bindingAt? c.node.start = none)) ∧
      ∀ s ∈ site.arena.statements, ∀ p ∈ [site.parameters.value, site.parameters.error],
        p.name = "v" → (p.id ∈ s.references ↔ ∃ c ∈ block.cursors [], Refers c ∧
          c.node.text u.source = "v" ∧ s.start ≤ c.node.start ∧ c.node.start < s.stop ∧
          denoted c = some (.parameter (p.id - 1))) := by
  intro u
  obtain ⟨clean, found⟩ := read_shadowedText
  obtain ⟨call, eligible, found⟩ := List.any_eq_true.1 found
  cases parts : callbackParts u.source (callbackOf call.node) with
  | error reason =>
    rw [parts] at found
    cases found
  | ok pair =>
    obtain ⟨parameters, block⟩ := pair
    rw [parts] at found
    have all : block.preorder.all (fun n => !departs u.source (fun _ _ => false) "v" n) = true :=
      found
    have plain : ∀ n ∈ block.preorder, departs u.source (fun _ _ => false) "v" n = false := by
      intro n hn
      exact Bool.not_eq_true' _ ▸ List.all_eq_true.1 all n hn
    have isSite : IsSite u "C.java" call parameters block
        (siteOf u "C.java" call parameters block) := ⟨eligible, parts, rfl⟩
    exact ⟨clean, call, parameters, block, _, isSite, plain,
      callback_names_denote (fun _ _ => false) "C.java" shadowedText "v" clean call parameters block
        _ isSite plain⟩

end MonoTap

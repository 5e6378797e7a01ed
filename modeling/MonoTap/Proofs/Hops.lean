import Mathlib.Data.List.Perm.Subperm
import MonoTap.Proofs.Calls
import MonoTap.Receiver.Typing

/-!
# The way to a type

The way from an expression to its type leads from name to name through the arguments of factory
calls. A way with as many factory calls as the text has bytes meets a name twice, and so goes round in
a circle: to follow it any further makes no difference.
-/

set_option autoImplicit false

namespace MonoTap.Java

open Text (encodeChars)

/-! ### Places in a tree -/

/-- Whether a cursor stands in the tree under a node. -/
inductive Cursor.Within (root : Node) : Cursor → Prop
  | here : Within root ⟨root, []⟩
  | down {c : Cursor} {n : Node} (outer : Within root c) (inside : n ∈ c.node.children) :
      Within root (c.down n)

namespace Cursor.Within

variable {root n : Node} {c : Cursor} {outer : List Node}

/-- The node around a place is a place. -/
theorem around {node : Node} (h : Within root ⟨node, n :: outer⟩) : Within root ⟨n, outer⟩ := by
  cases h with
  | down above _ => exact above

/-- A place is the top, or a place under a node inside the top. -/
theorem cases_top (h : Within root c) : c = ⟨root, []⟩ ∨
    ∃ m ∈ root.children, ∃ d, Within m d ∧ c = ⟨d.node, d.ancestors ++ [root]⟩ := by
  induction h with
  | here => exact .inl rfl
  | @down c n above inside ih =>
    rcases ih with rfl | ⟨m, hm, d, hd, rfl⟩
    · exact .inr ⟨n, inside, ⟨n, []⟩, .here, rfl⟩
    · exact .inr ⟨m, hm, d.down n, .down hd inside, rfl⟩

theorem mem_preorder (h : Within root c) : c.node ∈ root.preorder := by
  induction h with
  | here => exact root.self_mem_preorder
  | @down c n _ inside ih =>
    exact Node.mem_preorder_trans ih (c.node.mem_preorder_of_mem_children inside n.self_mem_preorder)

theorem mem_preorder_of_ancestors (h : Within root c) : ∀ n ∈ c.ancestors, n ∈ root.preorder := by
  induction h with
  | here =>
    intro n hn
    cases hn
  | down above _ ih =>
    intro n hn
    rcases List.mem_cons.1 hn with rfl | hn
    · exact above.mem_preorder
    · exact ih n hn

variable {text : List Char} {lo hi : Nat}

/-- Two names that start at one offset are one place. -/
theorem eq_of_start (placed : Placed (Solid text) lo root.children hi)
    (belongs : ∀ m ∈ root.children, m.Belongs text) (leaf : root.is .identifier = true → root.children = [])
    {a b : Cursor} (ha : Within root a) (hb : Within root b)
    (nameA : a.node.is .identifier = true) (nameB : b.node.is .identifier = true)
    (same : a.node.start = b.node.start) : a = b := by
  generalize size : sizeOf root = k
  induction k using Nat.strongRecOn generalizing root lo hi a b with
  | ind k ih =>
    rcases ha.cases_top with rfl | ⟨m, hm, d, hd, rfl⟩
    · rcases hb.cases_top with rfl | ⟨m, hm, _⟩
      · rfl
      · rw [leaf nameA] at hm
        cases hm
    · rcases hb.cases_top with rfl | ⟨m', hm', d', hd', rfl⟩
      · rw [leaf nameB] at hm
        cases hm
      · have own := belongs m hm
        have own' := belongs m' hm'
        have bounds := own.bounds hd.mem_preorder
        have bounds' := own'.bounds hd'.mem_preorder
        have wide := (own.inside hd.mem_preorder).spans.wide
        have wide' := (own'.inside hd'.mem_preorder).spans.wide
        dsimp only at same
        have one : m = m' := by
          rcases placed.apart hm hm' with one | before | after
          · exact one
          · omega
          · omega
        subst one
        have smaller := Node.sizeOf_lt_of_mem_children hm
        rw [ih (sizeOf m) (size ▸ smaller) own.placed (fun c hc => own.child hc) own.identifier_leaf
          hd hd' nameA nameB same rfl]

end Cursor.Within

mutual

theorem Cursor.Within.of_mem_cursors {root : Node} {ancestors : List Node} (n : Node) {c : Cursor}
    (within : Within root ⟨n, ancestors⟩) (h : c ∈ n.cursors ancestors) : Within root c := by
  cases n with
  | mk label role start stop children =>
    rw [Node.cursors, List.mem_cons] at h
    rcases h with rfl | h
    · exact within
    · exact of_mem_cursorsAll children (fun m hm => within.down hm) h

theorem Cursor.Within.of_mem_cursorsAll {root : Node} {ancestors : List Node} (ns : List Node)
    {c : Cursor} (within : ∀ n ∈ ns, Within root ⟨n, ancestors⟩)
    (h : c ∈ Node.cursorsAll ancestors ns) : Within root c := by
  cases ns with
  | nil => cases h
  | cons n ns =>
    rw [Node.cursorsAll, List.mem_append] at h
    rcases h with h | h
    · split at h
      · exact of_mem_cursors n (within n List.mem_cons_self) h
      · cases h
    · exact of_mem_cursorsAll ns (fun m hm => within m (List.mem_cons_of_mem n hm)) h

end

end MonoTap.Java

namespace MonoTap.Receiver

open Java (Node Cursor Kind Placed Solid)
open Text (Source)

variable {source : Source} {root n inner : Node} {c place : Cursor} {outer : List Node}
  {name : String} {d : Declaration}

/-! ### Types and values of declarations -/

/-- Whether the type and the value of a declaration stand in the tree under a node. -/
structure Declaration.Within (root : Node) (d : Declaration) : Prop where
  type : ∀ t, d.type = some t →
    ∃ n ∈ root.preorder, n.child? .type = some t ∨ n.ofKind? .catchType = some t
  value : ∀ v, d.value = some v → v.Within root

theorem within_typed (h : n ∈ root.preorder) : Declaration.Within root ⟨n.child? .type, none⟩ :=
  ⟨fun _ ht => ⟨n, h, .inl ht⟩, fun _ hv => by cases hv⟩

theorem within_untyped (root : Node) : Declaration.Within root ⟨none, none⟩ :=
  ⟨fun _ ht => (by cases ht), fun _ hv => (by cases hv)⟩

theorem within_declarationAt (h : c.Within root) : (declarationAt c).Within root := by
  refine ⟨fun t ht => ⟨c.node, h.mem_preorder, .inl ht⟩, fun v hv => ?_⟩
  obtain ⟨m, found, rfl⟩ := Option.map_eq_some_iff.1 hv
  exact .down h (Node.mem_children_of_child? found)

theorem within_declarator? (h : c.Within root) (found : declarator? source name c = some d) :
    d.Within root := by
  obtain ⟨m, hm, rfl⟩ := Option.map_eq_some_iff.1 found
  refine ⟨fun t ht => ⟨c.node, h.mem_preorder, .inl ht⟩, fun v hv => ?_⟩
  obtain ⟨value, hvalue, rfl⟩ := Option.map_eq_some_iff.1 hv
  have inside := Node.mem_children_of_mem_childrenOf (List.mem_of_find?_eq_some hm)
  exact .down (.down h inside) (Node.mem_children_of_child? hvalue)

/-- What some of the declarations inside a node declare. -/
theorem within_findSome? (h : c.Within root) {ns : List Node} (inside : ∀ m ∈ ns, m ∈ c.node.children)
    (found : ns.findSome? (fun m => declarator? source name (c.down m)) = some d) :
    d.Within root := by
  obtain ⟨m, hm, own⟩ := List.exists_of_findSome?_eq_some found
  exact within_declarator? (.down h (inside m hm)) own

theorem within_field? (h : c.Within root) (found : field? source name c = some d) :
    d.Within root :=
  within_findSome? h
    (fun _ hm => Node.mem_children_of_mem_namedChildren (List.mem_filter.1 hm).1) found

theorem within_local? {before : Nat} (h : c.Within root)
    (found : local? source name before c = some d) : d.Within root := by
  refine within_findSome? h (fun m hm => ?_) found
  have taken := (List.takeWhile_prefix _).subset (List.mem_filter.1 hm).1
  exact Node.mem_children_of_mem_namedChildren taken

theorem within_parameter? (h : n ∈ root.preorder) (found : parameter? source name n = some d) :
    d.Within root := by
  unfold parameter? at found
  split at found
  · cases found
  · rename_i ps hps
    split at found
    · split at found <;> cases found
      exact within_untyped root
    · split at found
      · obtain ⟨_, _, rfl⟩ := Option.map_eq_some_iff.1 found
        exact within_untyped root
      · obtain ⟨p, hp, rfl⟩ := Option.map_eq_some_iff.1 found
        have inside := Node.mem_children_of_mem_namedChildren (List.mem_of_find?_eq_some hp)
        refine within_typed (Node.mem_preorder_trans h ?_)
        exact n.mem_preorder_of_mem_children (Node.mem_children_of_child? hps)
          (ps.mem_preorder_of_mem_children inside p.self_mem_preorder)

theorem within_caught? (h : n ∈ root.preorder) (found : caught? source name n = some d) :
    d.Within root := by
  obtain ⟨p, hp, rfl⟩ := Option.map_eq_some_iff.1 found
  have inside := Node.mem_children_of_mem_namedChildren (List.mem_of_find?_eq_some hp)
  refine ⟨fun t ht => ⟨p, Node.mem_preorder_trans h ?_, .inr ht⟩, fun _ hv => by cases hv⟩
  exact n.mem_preorder_of_mem_children inside p.self_mem_preorder

theorem within_resource? (h : c.Within root) (found : resource? source name c = some d) :
    d.Within root := by
  unfold resource? at found
  split at found
  · cases found
  · rename_i rs hrs
    obtain ⟨m, hm, rfl⟩ := Option.map_eq_some_iff.1 found
    have inside := Node.mem_children_of_mem_namedChildren (List.mem_of_find?_eq_some hm)
    exact within_declarationAt (.down (.down h (Node.mem_children_of_child? hrs)) inside)

theorem within_declaredBy? (h : c.Within root) (found : declaredBy? source name c inner = some d) :
    d.Within root := by
  unfold declaredBy? at found
  split at found
  · cases found
  · split at found
    iterate 4 exact within_local? h found
    iterate 3 exact within_parameter? h.mem_preorder found
    · exact within_field? h found
    · exact within_findSome? h
        (fun _ hm => Node.mem_children_of_mem_childrenOf (List.mem_filter.1 hm).1) found
    · split at found <;> cases found
      exact within_typed h.mem_preorder
    · exact within_caught? h.mem_preorder found
    · exact within_resource? h found
    · cases found

theorem within_declarationAround? (h : Cursor.Within root ⟨inner, outer⟩)
    (found : declarationAround? source name inner outer = some d) : d.Within root := by
  induction outer generalizing inner with
  | nil => cases found
  | cons n outer ih =>
    have above := h.around
    rw [declarationAround?] at found
    rcases Option.or_eq_some_iff.1 found with own | ⟨_, further⟩
    · exact within_declaredBy? above own
    · exact ih above further

theorem within_fieldAround? {node : Node} (h : Cursor.Within root ⟨node, outer⟩)
    (found : fieldAround? source name outer = some d) : d.Within root := by
  induction outer generalizing node with
  | nil => cases found
  | cons n outer ih =>
    have above := h.around
    rw [fieldAround?] at found
    split at found
    · exact within_field? above found
    · exact ih above found

/-! ### Steps between factory calls -/

/-- How the type of an expression depends on the types of names that are arguments of factory calls:
not at all, or it is that of a factory call with such an argument. -/
def Leads (root : Node) (typeBy : (Cursor → Option ResolvedType) → Option ResolvedType) : Prop :=
  (∃ t, ∀ nameType?, typeBy nameType? = t) ∨
    ∃ mono v, v.Within root ∧ v.node.is .identifier = true ∧
      ∀ nameType?, typeBy nameType? = some ⟨mono, [(nameType? v).bind ResolvedType.text?]⟩

theorem leads_const (root : Node) (t : Option ResolvedType) : Leads root fun _ => t :=
  .inl ⟨t, fun _ => rfl⟩

theorem leads_factoryType (h : c.Within root) (mono name : String) :
    Leads root fun nameType? => some (factoryType source nameType? mono name c) := by
  unfold factoryType
  dsimp only
  split
  · exact leads_const root _
  · split
    · split
      · exact leads_const root _
      · rename_i args hargs
        split
        · rename_i value hvalue
          split
          · exact leads_const root _
          · split
            · rename_i is
              have inside : value ∈ args.children :=
                Node.mem_children_of_mem_namedChildren (hvalue ▸ List.mem_singleton_self value)
              exact .inr ⟨mono, _, .down (.down h (Node.mem_children_of_child? hargs)) inside, is,
                fun _ => rfl⟩
            · exact leads_const root _
        · exact leads_const root _
    · exact leads_const root _

theorem leads_declared {levels : Nat} (d : Declaration) (h : d.Within root)
    (further : ∀ v : Cursor, v.Within root →
      Leads root fun nameType? => typeWithin? source nameType? levels v) :
    Leads root fun nameType? => d.type? source (typeWithin? source nameType? levels) := by
  unfold Declaration.type?
  split
  · exact leads_const root _
  · split
    · cases value : d.value with
      | none => exact leads_const root _
      | some v => exact further v (h.value v value)
    · exact leads_const root _

theorem leads_typeWithin? (levels : Nat) (h : c.Within root) :
    Leads root fun nameType? => typeWithin? source nameType? levels c := by
  induction levels generalizing c with
  | zero => exact leads_const root _
  | succ levels ih =>
    have declared {found : Option Declaration} (within : ∀ d, found = some d → d.Within root) :
        Leads root fun nameType? =>
          found.bind (·.type? source (typeWithin? source nameType? levels)) := by
      cases found with
      | none => exact leads_const root _
      | some d => exact leads_declared d (within d rfl) fun v hv => ih hv
    unfold typeWithin?
    dsimp only
    split
    · exact leads_const root _
    · split
      · exact declared fun d found => within_declarationAround? h found
      · split
        · split
          · exact declared fun d found => within_fieldAround? h found
          · exact leads_const root _
        · exact leads_const root _
      · cases first : c.node.namedChildren.head? with
        | none => exact leads_const root _
        | some e =>
          have inside := Node.mem_children_of_mem_namedChildren (List.mem_of_mem_head? first)
          exact ih (.down h inside)
      · exact leads_const root _
      · split
        · exact leads_const root _
        · rename_i object hobject
          split
          · exact leads_factoryType h _ _
          · split
            · exact ih (.down h (Node.mem_children_of_child? hobject))
            · exact leads_const root _
      · exact leads_const root _

/-! ### Names on the way -/

/-- The type of a name as a factory call sees it with at most this many factory calls on the way. -/
def typeBefore? (source : Source) : (hops : Nat) → Cursor → Option ResolvedType
  | 0 => fun _ => none
  | hops + 1 => typeAfter? source hops

theorem typeAfter?_eq (hops : Nat) (c : Cursor) :
    typeAfter? source hops c = typeWithin? source (typeBefore? source hops) levels c := by
  cases hops <;> rfl

/-- The number of factory calls makes no difference to a type, or there is a next name. -/
theorem exists_next (within : c.Within root) :
    (∀ hops, typeAfter? source (hops + 1) c = typeAfter? source hops c) ∨
      ∃ mono v, v.Within root ∧ v.node.is .identifier = true ∧ ∀ hops,
        typeAfter? source hops c =
          some ⟨mono, [(typeBefore? source hops v).bind ResolvedType.text?]⟩ := by
  rcases leads_typeWithin? levels within with
    ⟨t, always⟩ | ⟨mono, v, inside, is, always⟩
  · refine .inl fun hops => ?_
    rw [typeAfter?_eq, typeAfter?_eq]
    exact (always _).trans (always _).symm
  · refine .inr ⟨mono, v, inside, is, fun hops => ?_⟩
    rw [typeAfter?_eq]
    exact always _

/-- Whether a name has exactly this many factory calls on the way to its type. -/
def Ranked (source : Source) (hops : Nat) (v : Cursor) : Prop :=
  (typeAfter? source hops v).bind ResolvedType.text? ≠
    (typeBefore? source hops v).bind ResolvedType.text?

variable {v w : Cursor} {i j hops : Nat} {mono : String}

theorem ranked_of_ne
    (next : ∀ hops, typeAfter? source hops c =
      some ⟨mono, [(typeBefore? source hops v).bind ResolvedType.text?]⟩)
    (other : typeAfter? source (hops + 1) c ≠ typeAfter? source hops c) : Ranked source hops v := by
  intro same
  apply other
  rw [next, next, ← same]
  rfl

theorem ne_of_ranked (h : Ranked source (hops + 1) v) :
    typeAfter? source (hops + 1) v ≠ typeAfter? source hops v :=
  fun same => h (congrArg (Option.bind · ResolvedType.text?) same)

/-- A name that leads to a factory call with another name has a factory call on the way. -/
theorem not_ranked_zero
    (next : ∀ hops, typeAfter? source hops v =
      some ⟨mono, [(typeBefore? source hops w).bind ResolvedType.text?]⟩) :
    ¬ Ranked source 0 v := by
  intro h
  apply h
  rw [next]
  rfl

theorem Ranked.unique (within : v.Within root) (hi : Ranked source i v) (hj : Ranked source j v) :
    i = j := by
  induction i generalizing j v with
  | zero =>
    cases j with
    | zero => rfl
    | succ j =>
      rcases exists_next within with steady | ⟨_, _, _, _, next⟩
      · exact (ne_of_ranked hj (steady j)).elim
      · exact (not_ranked_zero next hi).elim
  | succ i ih =>
    rcases exists_next within with steady | ⟨_, w, inside, _, next⟩
    · exact (ne_of_ranked hi (steady i)).elim
    · cases j with
      | zero => exact (not_ranked_zero next hj).elim
      | succ j =>
        rw [ih inside (ranked_of_ne next (ne_of_ranked hi)) (ranked_of_ne next (ne_of_ranked hj))]

section

variable {text : List Char} {lo hi : Nat} (placed : Placed (Solid text) lo root.children hi)
  (belongs : ∀ m ∈ root.children, m.Belongs text)
  (leaf : root.is .identifier = true → root.children = [])
include placed belongs leaf

/-- The names on the way to a type start at as many offsets as there are factory calls between. -/
theorem exists_names (within : v.Within root) (name : v.node.is .identifier = true)
    (h : Ranked source hops v) :
    ∃ vs : List Cursor, vs.length = hops + 1 ∧
      (∀ w ∈ vs, w.Within root ∧ w.node.is .identifier = true ∧ ∃ i ≤ hops, Ranked source i w) ∧
      (vs.map (·.node.start)).Nodup := by
  induction hops generalizing v with
  | zero =>
    refine ⟨[v], rfl, fun w hw => ?_, List.pairwise_singleton _ _⟩
    cases List.mem_singleton.1 hw
    exact ⟨within, name, 0, Nat.le_refl _, h⟩
  | succ hops ih =>
    rcases exists_next within with steady | ⟨_, w, inside, is, next⟩
    · exact (ne_of_ranked h (steady hops)).elim
    · obtain ⟨vs, length, each, apart⟩ := ih inside is (ranked_of_ne next (ne_of_ranked h))
      refine ⟨v :: vs, by rw [List.length_cons, length], fun w hw => ?_, ?_⟩
      · rcases List.mem_cons.1 hw with rfl | hw
        · exact ⟨within, name, hops + 1, Nat.le_refl _, h⟩
        · obtain ⟨place, is, i, small, ranked⟩ := each w hw
          exact ⟨place, is, i, Nat.le_succ_of_le small, ranked⟩
      · rw [List.map_cons, List.nodup_cons]
        refine ⟨fun mem => ?_, apart⟩
        obtain ⟨w, hw, start⟩ := List.mem_map.1 mem
        obtain ⟨place, is, i, small, ranked⟩ := each w hw
        have one := place.eq_of_start placed belongs leaf within is name start
        rw [one] at ranked
        have := Ranked.unique within ranked h
        omega

/-- From as many factory calls on as the text has bytes, more of them make no difference. -/
theorem typeAfter?_succ (within : c.Within root)
    (bounds : ∀ m ∈ root.preorder, m.is .identifier = true → m.start < source.size)
    (large : source.size ≤ hops) :
    typeAfter? source (hops + 1) c = typeAfter? source hops c := by
  rcases exists_next within with steady | ⟨_, v, inside, is, next⟩
  · exact steady hops
  · by_contra other
    obtain ⟨vs, length, each, apart⟩ :=
      exists_names placed belongs leaf inside is (ranked_of_ne next other)
    have starts : vs.map (·.node.start) ⊆ List.range source.size := by
      intro offset mem
      obtain ⟨w, hw, rfl⟩ := List.mem_map.1 mem
      obtain ⟨place, name, _⟩ := each w hw
      exact List.mem_range.2 (bounds w.node place.mem_preorder name)
    have fewer := (List.subperm_of_subset apart starts).length_le
    rw [List.length_map, List.length_range, length] at fewer
    omega

/-- The type of an expression may be looked for with any greater number of factory calls. -/
theorem typeAfter?_eq_type? (within : c.Within root)
    (bounds : ∀ m ∈ root.preorder, m.is .identifier = true → m.start < source.size)
    (large : source.size ≤ hops) : typeAfter? source hops c = type? source c := by
  induction large with
  | refl => rfl
  | step large ih => rw [typeAfter?_succ placed belongs leaf within bounds large, ih]

end

end MonoTap.Receiver

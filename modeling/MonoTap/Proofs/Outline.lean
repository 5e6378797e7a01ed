import MonoTap.Proofs.Effects

/-!
# Walks follow layouts

What a walk over a node does about a name is what the layout of the node says: its names are declared
and its parts are walked in the order of the layout, in a scope of their own where the layout has one.
There is one case for each form of syntax. Where the walk departs from the layout, the name in question
is not one that the node is about.
-/

set_option autoImplicit false

namespace MonoTap.Callback

open Java (Cursor Kind Node Role)
open Text (Source)

variable {source : Source} {x : String} {f g : Node → Effect} {n c m : Node} {ns : List Node}
  {items more : List Item}

/-! ### Effects of layouts -/

/-- The effect of an item, given those of the parts. -/
def Item.effect (source : Source) (x : String) (f : Node → Effect) : Item → Effect
  | .name m => declaring source x m
  | .part c => f c

/-- The effect of items one after the other, given those of the parts. -/
def along (source : Source) (x : String) (f : Node → Effect) (items : List Item) : Effect :=
  (items.map (Item.effect source x f)).prod

@[simp] theorem along_nil : along source x f [] = 1 := rfl

@[simp] theorem along_append :
    along source x f (items ++ more) = along source x f items * along source x f more := by
  rw [along, List.map_append, List.prod_append]
  rfl

@[simp] theorem along_partItems : along source x f (partItems ns) = (ns.map f).prod := by
  rw [along, partItems, List.map_map]
  rfl

theorem along_names : along source x f (ns.map .name) = (ns.map (declaring source x)).prod := by
  rw [along, List.map_map]
  rfl

theorem along_flatMap {α : Type} (l : List α) (g : α → List Item) :
    along source x f (l.flatMap g) = (l.map fun a => along source x f (g a)).prod := by
  induction l with
  | nil => rfl
  | cons a l ih => rw [List.flatMap_cons, along_append, ih, List.map_cons, List.prod_cons]

theorem eventsOf_flatMap {α : Type} (l : List α) (g : α → List Step) :
    eventsOf source (l.flatMap g) = l.flatMap fun a => eventsOf source (g a) :=
  List.flatMap_assoc ..

/-- Steps that declare some names, or that walk over some parts, one after the other. -/
theorem hasEffect_along {α : Type} {l : List α} {steps : α → List Step} {items : α → List Item}
    (each : ∀ a ∈ l, HasEffect x (eventsOf source (steps a)) (along source x f (items a))) :
    HasEffect x (eventsOf source (l.flatMap steps)) (along source x f (l.flatMap items)) := by
  rw [eventsOf_flatMap, along_flatMap]
  exact hasEffect_flatMap each

theorem hasEffect_append {l m : List Step}
    (first : HasEffect x (eventsOf source l) (along source x f items))
    (second : HasEffect x (eventsOf source m) (along source x f more)) :
    HasEffect x (eventsOf source (l ++ m)) (along source x f (items ++ more)) := by
  rw [eventsOf_append, along_append]
  exact first.append second

theorem hasEffect_declareName (f : Node → Effect) (name type : Option Node) :
    HasEffect x (eventsOf source (declareName source name type))
      (along source x f (name.toList.map .name)) := by
  cases name with
  | none => exact .nil
  | some m =>
    rw [along_names, Option.toList_some, List.map_singleton, List.prod_singleton]
    exact hasEffect_declare _

theorem hasEffect_declareParameter (f : Node → Effect) (p : Node) :
    HasEffect x (eventsOf source (declareParameter source p))
      (along source x f (parameterName p)) := by
  rw [declareParameter, parameterName]
  split
  · exact hasEffect_declareName f ..
  · split
    · cases p.ofKind? .variableDeclarator with
      | none => exact .nil
      | some d =>
        rw [Option.toList_some, List.flatMap_singleton]
        exact hasEffect_declareName f ..
    · exact .nil

theorem hasEffect_parameters (f : Node → Effect) (n : Node) :
    HasEffect x (eventsOf source ((((n.child? .parameters).map Node.namedChildren).getD []).flatMap
      (declareParameter source))) (along source x f (parameterNames n)) := by
  rw [parameterNames]
  cases n.child? .parameters with
  | none => exact .nil
  | some ps =>
    rw [Option.toList_some, List.flatMap_singleton]
    exact hasEffect_along fun p _ => hasEffect_declareParameter f p

theorem hasEffect_declareLambdaParameters (f : Node → Effect) (n : Node) :
    HasEffect x (eventsOf source (declareLambdaParameters source n))
      (along source x f (lambdaNames n)) := by
  rw [declareLambdaParameters, lambdaNames]
  cases n.child? .parameters with
  | none => exact .nil
  | some ps =>
    rw [Option.toList_some, List.flatMap_singleton]
    dsimp only
    split
    · exact hasEffect_declareName f (some ps) none
    · split
      · rw [← List.flatMap_singleton' ((ps.namedChildren.filter _).map Item.name), List.flatMap_map]
        exact hasEffect_along fun p _ => hasEffect_declareName f (some p) none
      · exact hasEffect_along fun p _ => hasEffect_declareParameter f p

theorem hasEffect_declareFields (f : Node → Effect) (n : Node) :
    HasEffect x (eventsOf source (declareFields source n))
      (along source x f (memberNames n .fieldDeclaration)) :=
  hasEffect_along fun _ _ => hasEffect_along fun _ _ => hasEffect_declareName f ..

/-! ### Walks follow layouts -/

/-- The effect of the walk over a part of a layout. Of a declarator only the value is walked. -/
def coded (source : Source) (x : String) (c : Node) : Effect :=
  if c.role = some .declarator then ((c.childrenOf .value).map (walked source x)).prod
  else walked source x c

/-- The effect that a node has by its layout, given the effects of its parts. -/
def outline (source : Source) (x : String) (f : Node → Effect) (n : Node) : Effect :=
  (if isReference n then mentioning source x n else 1) *
    if isScope n then (along source x f (layout n)).scope else along source x f (layout n)

theorem coded_of_role (h : c.role ≠ some .declarator) : coded source x c = walked source x c :=
  if_neg h

theorem coded_eq_one (absent : holds source x c = false) : coded source x c = 1 := by
  rw [coded]
  split
  · apply List.prod_eq_one
    intro a ha
    obtain ⟨d, hd, rfl⟩ := List.mem_map.1 ha
    exact walked_eq_one (holds_of_mem_preorder absent
      (mem_preorder_of_mem_children (Node.mem_children_of_mem_childrenOf hd)))
  · exact walked_eq_one absent

theorem holds_of_any {p : Node → Bool} (h : (ns.filter p).any (holds source x) = false)
    (hc : c ∈ ns) (hp : p c = true) : holds source x c = false := by
  rw [List.any_eq_false] at h
  exact Bool.eq_false_iff.2 (h c (List.mem_filter.2 ⟨hc, hp⟩))

/-- A walk over nodes that declare no variables of their own goes along them as parts. -/
theorem hasEffect_parts (h : ∀ c ∈ ns, c.role = some .declarator → holds source x c = false) :
    HasEffect x (eventsOf source (visits ns))
      (along source x (coded source x) (partItems ns)) := by
  have same : ns.map (walked source x) = ns.map (coded source x) := by
    apply List.map_congr_left
    intro c hc
    by_cases role : c.role = some .declarator
    · rw [walked_eq_one (h c hc role), coded_eq_one (h c hc role)]
    · exact (coded_of_role role).symm
  rw [along_partItems, ← same]
  exact hasEffect_visits ns

/-- A walk may leave out nodes that the name does not occur in. -/
theorem hasEffect_filtered {p : Node → Bool}
    (h : ∀ c ∈ ns, c.role = some .declarator → holds source x c = false)
    (absent : ∀ c ∈ ns, p c = false → holds source x c = false) :
    HasEffect x (eventsOf source (visits ns))
      (along source x (coded source x) (partItems (ns.filter p))) := by
  have whole := hasEffect_parts h
  rw [along_partItems] at whole ⊢
  rwa [← prod_map_filter fun c hc hp => coded_eq_one (absent c hc hp)]

theorem hasEffect_code {roles : List Role} (other : .declarator ∉ roles) (n : Node) :
    HasEffect x (eventsOf source (visitParts n roles))
      (along source x (coded source x) (codeIn n roles)) := by
  have whole : visitParts n roles = visits (roles.flatMap n.childrenOf) := by
    rw [visitParts, visits, List.map_flatMap]
    rfl
  rw [whole, codeIn]
  apply hasEffect_parts
  intro c hc role
  obtain ⟨r, hr, hc⟩ := List.mem_flatMap.1 hc
  have part : c.role = some r := by simpa using (List.mem_filter.1 hc).2
  rw [role, Option.some.injEq] at part
  exact (other (part ▸ hr)).elim

theorem hasEffect_declarator (hd : c.role = some .declarator) :
    HasEffect x (eventsOf source (visits (c.childrenOf .value)))
      (along source x (coded source x) [.part c]) := by
  have value : along source x (coded source x) [.part c] =
      ((c.childrenOf .value).map (walked source x)).prod := by
    rw [along, List.map_singleton, List.prod_singleton, Item.effect, coded, if_pos hd]
  rw [value]
  exact hasEffect_visits _

section

variable {events : List ScopeEvent} {l : List Step} {k : Kind}

theorem layout_of_label (role : n.role ≠ some .declarator) (label : n.label = .kind k) :
    layout n = layoutAs n k := by
  rw [layout, if_neg role, label]

theorem isScope_of_label (role : n.role ≠ some .declarator) (label : n.label = .kind k) :
    isScope n = opensScope k := by
  rw [isScope, if_neg role, label]

theorem isReference_of_label (label : n.label = .kind k) (other : k ≠ .identifier) :
    isReference n = false := by
  rw [isReference]
  split
  · rfl
  · rw [Node.is, label, beq_eq_false_iff_ne]
    exact fun same => other (Java.Label.kind.inj same)

theorem hasEffect_outline (role : n.role ≠ some .declarator) (label : n.label = .kind k)
    (other : k ≠ .identifier) (noScope : opensScope k = false)
    (h : HasEffect x events (along source x (coded source x) (layoutAs n k))) :
    HasEffect x events (outline source x (coded source x) n) := by
  rw [outline, isReference_of_label label other, isScope_of_label role label, noScope,
    layout_of_label role label]
  simpa using h

theorem hasEffect_outline_scope (role : n.role ≠ some .declarator) (label : n.label = .kind k)
    (scope : opensScope k = true)
    (h : HasEffect x (eventsOf source l) (along source x (coded source x) (layoutAs n k))) :
    HasEffect x (eventsOf source (inScope l)) (outline source x (coded source x) n) := by
  have other : k ≠ .identifier := by
    rintro rfl
    cases scope
  rw [outline, isReference_of_label label other, isScope_of_label role label, scope,
    layout_of_label role label, eventsOf_inScope]
  simpa using h.inScope

/-- In a node without the name the walk and the layout do nothing about it. -/
theorem hasEffect_absent (role : n.role ≠ some .declarator) (label : n.label = .kind k)
    (other : k ≠ .identifier) (noScope : opensScope k = false) (empty : layoutAs n k = [])
    (absent : holds source x n = false) :
    HasEffect x (eventsOf source (steps source n)) (outline source x (coded source x) n) := by
  apply hasEffect_outline role label other noScope
  rw [empty, along_nil, ← walked_eq_one absent, ← scopeEvents_eq]
  exact hasEffect_scopeEvents source x n

end

/-! ### What layouts declare -/

theorem lastNamed_append (names more : List Node) :
    lastNamed source x (names ++ more) = (lastNamed source x more).or (lastNamed source x names) := by
  rw [lastNamed, List.reverse_append, List.find?_append, lastNamed, lastNamed]
  cases more.reverse.find? _ <;> rfl

theorem lastNamed_of_isNamed (h : isNamed source x ns = false) : lastNamed source x ns = none := by
  have absent : ns.reverse.find? (·.text source == x) = none := by
    rw [List.find?_eq_none]
    intro m hm
    exact List.any_eq_false.1 h m (List.mem_reverse.1 hm)
  rw [lastNamed, absent, Option.map_none]

theorem isNamed_append (names more : List Node) :
    isNamed source x (names ++ more) = (isNamed source x names || isNamed source x more) :=
  List.any_append

/-- The effects of parts are such that each declares what it makes visible. -/
def Declares (source : Source) (x : String) (f : Node → Effect) (ns : List Node) : Prop :=
  ∀ c ∈ ns, (f c).declared = lastNamed source x (declares c)

theorem declared_effect {item : Item} (h : Declares source x f (partsOf [item])) :
    (item.effect source x f).declared = lastNamed source x item.names := by
  cases item with
  | name m =>
    simp only [Item.effect, declaring, Item.names, lastNamed, List.reverse_singleton]
    by_cases same : m.text source = x <;> simp [same]
  | part c => exact h c List.mem_cons_self

theorem Declares.of_cons {item : Item} (h : Declares source x f (partsOf (item :: items))) :
    Declares source x f (partsOf [item]) ∧ Declares source x f (partsOf items) := by
  have split : partsOf (item :: items) = partsOf [item] ++ partsOf items :=
    @partsOf_append [item] items
  rw [split] at h
  exact ⟨fun c hc => h c (List.mem_append_left _ hc), fun c hc => h c (List.mem_append_right _ hc)⟩

theorem declared_along (h : Declares source x f (partsOf items)) :
    (along source x f items).declared = lastNamed source x (items.flatMap Item.names) := by
  induction items with
  | nil => rfl
  | cons item items ih =>
    obtain ⟨here, later⟩ := h.of_cons
    rw [List.flatMap_cons, lastNamed_append, ← declared_effect here, ← ih later]
    rfl

theorem mentions_along_names (h : partsOf items = []) (o : Option Target) :
    (along source x f items).mentions o = ∅ := by
  apply Effect.mentions_prod
  intro a ha o
  obtain ⟨item, mem, rfl⟩ := List.mem_map.1 ha
  cases item with
  | name m => rfl
  | part c =>
    have found := mem_partsOf.2 mem
    rw [h] at found
    cases found

theorem along_names_eq_one (h : partsOf items = [])
    (absent : isNamed source x (items.flatMap Item.names) = false) :
    along source x f items = 1 := by
  have parts : Declares source x f (partsOf items) := by
    rw [h]
    intro c hc
    cases hc
  ext1
  · rw [declared_along parts, lastNamed_of_isNamed absent]
    rfl
  · funext o
    exact mentions_along_names h o

theorem declared_of_isNamed (h : Declares source x f ns)
    (absent : isNamed source x ((partItems ns).flatMap Item.names) = false) (hc : c ∈ ns) :
    (f c).declared = none := by
  rw [h c hc]
  apply lastNamed_of_isNamed
  rw [isNamed, List.any_eq_false] at absent ⊢
  intro m hm
  exact absent m (List.mem_flatMap.2 ⟨.part c, List.mem_map.2 ⟨c, hc, rfl⟩, hm⟩)

/-- If a name that a body declares is not used there, or not declared, a walk need not open a scope
for the body. -/
theorem along_body (noParts : partsOf items = []) (parts : Declares source x (coded source x) ns)
    (plain : (isNamed source x ((items ++ partItems ns).flatMap Item.names) &&
      ns.any (holds source x)) = false) :
    along source x (coded source x) (partItems ns) =
      (along source x (coded source x) (items ++ partItems ns)).scope := by
  rw [along_append, along_partItems]
  rcases Bool.and_eq_false_iff.1 plain with absent | unused
  · rw [List.flatMap_append, isNamed_append, Bool.or_eq_false_iff] at absent
    have none : (ns.map (coded source x)).prod.declared = none := by
      apply Effect.declared_prod
      intro a ha
      obtain ⟨c, hc, rfl⟩ := List.mem_map.1 ha
      exact declared_of_isNamed parts absent.2 hc
    rw [along_names_eq_one noParts absent.1, one_mul, Effect.scope_of_declared none]
  · have one : (ns.map (coded source x)).prod = 1 := by
      apply List.prod_eq_one
      intro a ha
      obtain ⟨c, hc, rfl⟩ := List.mem_map.1 ha
      exact coded_eq_one (Bool.eq_false_iff.2 (List.any_eq_false.1 unused c hc))
    rw [one, mul_one]
    ext1
    · rfl
    · funext o
      exact (mentions_along_names noParts o).symm

/-- If the name of a resource does not occur in a clause, or there is none, a walk may come to the
clauses first or last. -/
theorem along_clauses (parts : Declares source x (coded source x) ns) {p : Node → Bool}
    (plain : (isNamed source x
        ((partItems (ns.filter p) ++ partItems (ns.filter fun c => !p c)).flatMap Item.names) &&
      (ns.filter p).any (holds source x)) = false) :
    along source x (coded source x) (partItems ns) = along source x (coded source x)
      (partItems (ns.filter p) ++ partItems (ns.filter fun c => !p c)) := by
  rw [along_append, along_partItems, along_partItems, along_partItems]
  have order : (ns.filter p ++ ns.filter fun c => !p c).Perm ns := List.filter_append_perm p ns
  rcases Bool.and_eq_false_iff.1 plain with absent | unused
  · rw [← List.prod_append, ← List.map_append]
    have still : ∀ a ∈ (ns.filter p ++ ns.filter fun c => !p c).map (coded source x),
        a.declared = none := by
      intro a ha
      obtain ⟨c, hc, rfl⟩ := List.mem_map.1 ha
      apply declared_of_isNamed (fun d hd => parts d (order.subset hd)) _ hc
      rwa [partItems, List.map_append]
    apply List.Perm.prod_eq' (order.symm.map _)
    apply List.pairwise_of_forall_mem_list
    intro a ha b hb
    exact Effect.commute (still a ((order.symm.map _).subset ha))
      (still b ((order.symm.map _).subset hb))
  · have quiet : ∀ c ∈ ns, (!p c) = false → coded source x c = 1 := by
      intro c hc hp
      exact coded_eq_one (holds_of_any unused hc (by simpa using hp))
    have one : ((ns.filter p).map (coded source x)).prod = 1 := by
      apply List.prod_eq_one
      intro a ha
      obtain ⟨c, hc, rfl⟩ := List.mem_map.1 ha
      obtain ⟨hc, hp⟩ := List.mem_filter.1 hc
      exact coded_eq_one (holds_of_any unused hc hp)
    rw [one, one_mul]
    exact prod_map_filter quiet

/-- If a resource does not occur in its own value, a walk may come to the value first. -/
theorem along_resource (plain : (isNamed source x (n.child? .name).toList &&
      (n.childrenOf .value).any (holds source x)) = false) :
    along source x (coded source x) (codeIn n [.value] ++ nameIn n) =
      along source x (coded source x) (nameIn n ++ codeIn n [.value]) := by
  rw [along_append, along_append]
  rcases Bool.and_eq_false_iff.1 plain with other | unused
  · have one : along source x (coded source x) (nameIn n) = 1 := by
      apply along_names_eq_one (partsOf_nameIn n)
      have names : (nameIn n).flatMap Item.names = (n.child? .name).toList := by
        rw [nameIn, List.flatMap_map]
        exact List.flatMap_singleton' _
      rwa [names]
    rw [one, one_mul, mul_one]
  · have one : along source x (coded source x) (codeIn n [.value]) = 1 := by
      rw [codeIn, along_partItems]
      apply List.prod_eq_one
      intro a ha
      obtain ⟨c, hc, rfl⟩ := List.mem_map.1 ha
      rw [List.flatMap_singleton] at hc
      exact coded_eq_one (Bool.eq_false_iff.2 (List.any_eq_false.1 unused c hc))
    rw [one, one_mul, mul_one]

/-- The walk over a body that opens no scope, although it should. -/
theorem hasEffect_body {events : List ScopeEvent} {k : Kind} (role : n.role ≠ some .declarator)
    (label : n.label = .kind k) (scope : opensScope k = true)
    (layoutEq : layoutAs n k = items ++ partItems ns) (noParts : partsOf items = [])
    (parts : Declares source x (coded source x) n.children)
    (plain : (isNamed source x (introduced n) && (partsOf (layout n)).any (holds source x)) = false)
    (h : HasEffect x events (along source x (coded source x) (partItems ns))) :
    HasEffect x events (outline source x (coded source x) n) := by
  have other : k ≠ .identifier := by
    rintro rfl
    cases scope
  have whole : layout n = items ++ partItems ns := (layout_of_label role label).trans layoutEq
  have inside : Declares source x (coded source x) ns := by
    intro c hc
    apply parts c
    apply mem_children_of_part
    rw [whole]
    exact List.mem_append_right _ (List.mem_map.2 ⟨c, hc, rfl⟩)
  rw [introduced, whole, partsOf_append, noParts, partsOf_partItems, List.nil_append] at plain
  rw [along_body noParts inside plain] at h
  rw [outline, isReference_of_label label other, isScope_of_label role label, scope, whole]
  simpa using h

/-! ### Every form -/

/-- Where it does not depart from the rules, the walk over a node does what the layout says. -/
theorem hasEffect_steps {inherits : Node → String → Bool} (role : n.role ≠ some .declarator)
    (plain : departs source inherits x n = false)
    (parts : Declares source x (coded source x) n.children) :
    HasEffect x (eventsOf source (steps source n)) (outline source x (coded source x) n) := by
  rw [departs, Bool.or_eq_false_iff, Bool.or_eq_false_iff] at plain
  obtain ⟨⟨_, constants⟩, special⟩ := plain
  cases label : n.label with
  | token t =>
    have empty : outline source x (coded source x) n = 1 := by
      simp [outline, isReference, isScope, layout, role, label, Node.is]
    rw [empty, steps, label]
    exact .nil
  | kind k =>
    have whole := @hasEffect_absent source x n k role label
    replace special : departsAs source x n k = false := by
      rw [label] at special
      exact special
    have others (local_ : k ≠ .localVariableDeclaration) (field : k ≠ .fieldDeclaration) :
        ∀ c ∈ n.namedChildren, c.role = some .declarator → holds source x c = false := by
      have kind : n.isAny [.localVariableDeclaration, .fieldDeclaration] = false := by
        simp [Node.isAny, Node.is, label, local_, field]
      rw [kind, Bool.not_false, Bool.true_and] at constants
      intro c hc role
      exact holds_of_any constants (Node.mem_children_of_mem_namedChildren hc) (by simp [role])
    have body : ∀ c ∈ (n.child? .body).toList, c.role = some .declarator → holds source x c = false := by
      intro c hc role
      rw [Node.role_of_child? (Option.mem_toList.1 hc)] at role
      cases role
    simp only [steps, label] at whole ⊢
    split
    · rename_i label
      have own : outline source x (coded source x) n = mentioning source x n := by
        simp [outline, isReference, isScope, opensScope, layout, layoutAs, role, label, Node.is]
      rw [own]
      exact hasEffect_mention
    · exact hasEffect_outline role label (by decide) rfl (hasEffect_code (by decide) n)
    · exact hasEffect_outline role label (by decide) rfl (hasEffect_code (by decide) n)
    · apply hasEffect_outline role label (by decide) rfl
      apply hasEffect_parts
      exact fun c hc => others (by decide) (by decide) c (List.mem_of_mem_take hc)
    · apply hasEffect_outline role label (by decide) rfl
      apply hasEffect_parts
      exact fun c hc => others (by decide) (by decide) c (List.mem_filter.1 hc).1
    iterate 4 · exact hasEffect_outline role label (by decide) rfl .nil
    · exact whole (by decide) rfl rfl special
    · exact hasEffect_outline role label (by decide) rfl (hasEffect_code (by decide) n)
    · exact hasEffect_outline role label (by decide) rfl (hasEffect_code (by decide) n)
    · apply hasEffect_outline role label (by decide) rfl
      apply hasEffect_along
      intro d hd
      have declarator : d.role = some .declarator := by simpa using (List.mem_filter.1 hd).2
      exact hasEffect_append (hasEffect_declareName _ ..) (hasEffect_declarator declarator)
    · apply hasEffect_outline role label (by decide) rfl
      have values : layoutAs n .fieldDeclaration =
          (n.childrenOf .declarator).flatMap fun d => [.part d] := by
        simp [layoutAs, codeIn, partItems, ← List.map_eq_flatMap]
      rw [values]
      apply hasEffect_along
      intro d hd
      exact hasEffect_declarator (by simpa using (List.mem_filter.1 hd).2)
    · apply hasEffect_outline_scope role label rfl
      exact hasEffect_append (hasEffect_declareFields _ n)
        (hasEffect_parts (others (by decide) (by decide)))
    iterate 2
      · apply hasEffect_outline_scope role label rfl
        exact hasEffect_append (hasEffect_parameters _ n) (hasEffect_code (by decide) n)
    · apply hasEffect_outline_scope role label rfl
      exact hasEffect_append (hasEffect_declareLambdaParameters _ n) (hasEffect_code (by decide) n)
    · apply hasEffect_outline_scope role label rfl
      exact hasEffect_append
        (hasEffect_append (hasEffect_code (by decide) n) (hasEffect_declareName _ ..))
        (hasEffect_code (by decide) n)
    iterate 2
      · apply hasEffect_outline_scope role label rfl
        exact hasEffect_parts (others (by decide) (by decide))
    · apply hasEffect_outline_scope role label rfl
      have visited := @hasEffect_parts source x _ (others (by decide) (by decide))
      rw [departsAs, introduced, layout_of_label role label] at special
      rwa [along_clauses (fun c hc => parts c (Node.mem_children_of_mem_namedChildren hc))
        special] at visited
    iterate 4
      · apply hasEffect_outline_scope role label rfl
        exact hasEffect_parts (others (by decide) (by decide))
    · exact hasEffect_outline role label (by decide) rfl (hasEffect_declareName _ ..)
    · apply hasEffect_outline role label (by decide) rfl
      rw [departsAs] at special
      rw [layoutAs]
      split
      · rename_i unnamed
        rw [unnamed]
        exact hasEffect_parts (others (by decide) (by decide))
      · rename_i name named
        have turned := along_resource special
        rw [nameIn, named] at turned
        rw [nameIn, named, Option.isSome_some, if_pos rfl, ← turned]
        exact hasEffect_append (hasEffect_code (by decide) n) (hasEffect_declareName _ ..)
    · apply hasEffect_outline role label (by decide) rfl
      exact hasEffect_append (hasEffect_code (by decide) n) (hasEffect_declareName _ ..)
    · exact whole (by decide) rfl rfl special
    iterate 3
      · apply hasEffect_outline role label (by decide) rfl
        exact hasEffect_parts body
    · exact hasEffect_body role label rfl rfl (partsOf_parameterNames n) parts special
        (hasEffect_parts body)
    · apply hasEffect_outline role label (by decide) rfl
      exact hasEffect_parts body
    · -- the kinds that the walk does not tell apart
      have visited := others (by assumption) (by assumption)
      generalize same : layoutAs n k = items
      have shape := same
      unfold layoutAs at shape
      split at shape <;> try contradiction
      iterate 5 · exact whole (by decide) rfl rfl special
      iterate 3
        · apply hasEffect_outline role label (by decide) rfl
          apply hasEffect_filtered visited
          intro c hc hp
          exact holds_of_any special hc (by simpa using hp)
      iterate 2
        · exact hasEffect_body role label rfl rfl (partsOf_memberNames ..) parts special
            (hasEffect_parts visited)
      · exact hasEffect_body role label rfl rfl (partsOf_enumNames n) parts special
          (hasEffect_parts visited)
      · have noScope : opensScope k = false := by
          unfold opensScope
          split <;> first | rfl | contradiction
        apply hasEffect_outline role label (by assumption) noScope
        rw [same, ← shape]
        exact hasEffect_parts visited

/-- Where the walk does not depart from the rules, a part has the effect that its layout has. -/
theorem coded_eq_outline {inherits : Node → String → Bool}
    (plain : departs source inherits x n = false)
    (parts : Declares source x (coded source x) n.children) :
    coded source x n = outline source x (coded source x) n := by
  by_cases role : n.role = some .declarator
  · have values : (n.childrenOf .value).map (coded source x) =
        (n.childrenOf .value).map (walked source x) := by
      apply List.map_congr_left
      intro c hc
      apply coded_of_role
      have part : c.role = some .value := by simpa using (List.mem_filter.1 hc).2
      rw [part]
      decide
    rw [outline, isReference, if_pos role, isScope, if_pos role, layout, if_pos role, codeIn,
      along_partItems, List.flatMap_singleton, values, coded, if_pos role]
    exact (one_mul _).symm
  · have effect := hasEffect_steps role plain parts
    rw [← scopeEvents_eq] at effect
    rw [coded_of_role role]
    exact effect.effectOf_eq

end MonoTap.Callback

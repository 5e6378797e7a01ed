import MonoTap.Proofs.Lookups

/-!
# Names in callbacks and their declarations

The declaration that the walk over a callback binds a name to is the one at which the search for the
declaration of the name ends, unless one of the two departs from the rules of scopes. The search never
looks past the callback for a name that is bound in it, and for any other name nothing in the callback
stops it.
-/

set_option autoImplicit false

namespace MonoTap.Callback

open Java (Cursor Kind Node Role)
open Receiver (Declaration declarationAround?)
open Text (Source)

variable {source : Source} {x : String} {text : List Char} {root n k m : Node}
  {outer rest names : List Node}

/-! ### The search in a tree -/

theorem lastNamed_eq_none (absent : isNamed source x names = false) :
    lastNamed source x names = none := by
  rw [lastNamed, Option.map_eq_none_iff, List.find?_eq_none]
  intro m hm name
  exact isNamed_eq_false_iff.1 absent m (List.mem_reverse.1 hm) (beq_iff_eq.1 name)

/-- A node around a mention mentions the name as well. -/
theorem Mentions.around (h : n.Belongs text) (found : Mentions source x k) (part : .part k ∈ layout n) :
    Mentions source x n := by
  have inside := mem_children_of_part part
  obtain ⟨d, hd, refers, name⟩ := found
  have named : k.isNamed = true := by
    rw [← Bool.not_eq_false]
    intro token
    have silent := @sense_of_not_isNamed source x k text (fun _ _ => false) (h.child inside) token none
    exact (Set.eq_empty_iff_forall_notMem.1 silent _ ⟨d, hd, refers, name, rfl⟩)
  exact ⟨⟨d.node, d.ancestors ++ [n]⟩,
    mem_cursors.2 (Or.inr ⟨k, List.mem_filter.2 ⟨inside, named⟩, d, hd, rfl⟩),
    (@refers_inside source x n k (fun _ _ => false) rfl none d hd).1.2 ⟨refers, part⟩, name⟩

section

variable (clear : Clear source x root)
include clear

/-- Where the name is in view, it denotes what is declared there. -/
theorem lastNamed_of_mem {offset : Nat} (hn : n ∈ root.preorder) (hm : m ∈ inView n offset)
    (name : m.text source = x) : lastNamed source x (inView n offset) = some (.declared m.start) := by
  rw [lastNamed, Option.map_eq_some_iff]
  cases found : (inView n offset).reverse.find? (·.text source == x) with
  | none => exact (List.find?_eq_none.1 found m (List.mem_reverse.2 hm) (beq_iff_eq.2 name)).elim
  | some l =>
    have hl : l ∈ inView n offset := List.mem_reverse.1 (List.mem_of_find?_eq_some found)
    have own : l.text source = x := beq_iff_eq.1 (List.find?_some (p := fun c : Node => c.text source == x) found)
    have same := eq_of_introduced clear hn (inView_subset n offset hl) (inView_subset n offset hm) own name
    exact ⟨l, rfl, by rw [same]⟩

variable (h : root.Belongs text) (top : root.role ≠ some .declarator)
include h top

/-- A declarator in which the name occurs is a variable. -/
theorem is_variable (within : Cursor.Within root ⟨n, outer⟩) (held : holds source x n = true)
    (role : n.role = some .declarator) : n.is .variableDeclarator = true := by
  cases within with
  | here => exact (top role).elim
  | @down c _ above inside =>
    have hc := above.mem_preorder
    cases kind : c.node.isAny [.localVariableDeclaration, .fieldDeclaration] with
    | false => exact (role_of_holds clear hc kind inside held role).elim
    | true =>
      have known : c.node.is .localVariableDeclaration = true ∨ c.node.is .fieldDeclaration = true := by
        simpa [Node.isAny] using kind
      exact (h.inside hc).is_declarator known (List.mem_filter.2 ⟨inside, beq_iff_eq.2 role⟩)

/-- On the way outwards from a name in a tree, the search ends at the declaration that the name denotes,
and it goes on around the tree if the name denotes nothing in it. -/
theorem search_along (nonempty : x ≠ "") (outside : Option Target)
    (within : Cursor.Within root ⟨k, outer⟩) (inCode : InCode k outer) (found : Mentions source x k) :
    (∃ a, Declared root a ∧
      denotes? source (fun _ _ => false) x outside k outer = some (.declared a.node.start) ∧
      declarationAround? source x k (outer ++ rest) =
        some (declarationOf ⟨a.node, a.ancestors ++ rest⟩)) ∨
    denotes? source (fun _ _ => false) x outside k outer = outside ∧
      declarationAround? source x k (outer ++ rest) = declarationAround? source x root rest := by
  -- the nodes around the place, from the inside out
  induction outer generalizing k with
  | nil =>
    cases within
    exact Or.inr ⟨rfl, rfl⟩
  | cons n outer ih =>
    obtain ⟨part, inCode⟩ := inCode
    have around : Cursor.Within root ⟨n, outer⟩ := within.around
    have hn : n ∈ root.preorder := around.mem_preorder
    have mentioned := found.around (h.inside hn) part
    have variable_ := is_variable clear h top around (holds_of_mentions mentioned)
    rcases @finds_declaredBy source x text root n k outer rest clear h nonempty around variable_ part
      found with ⟨nothing, absent⟩ | ⟨a, declared, name, mem, here⟩
    · have silent := lastNamed_eq_none absent
      rw [List.cons_append, Receiver.declarationAround?_of_none nothing, denotes?, silent]
      exact ih around inCode mentioned
    · have shown := lastNamed_of_mem clear hn mem name
      rw [List.cons_append, Receiver.declarationAround?_of_declaredBy? here, denotes?, shown]
      exact Or.inl ⟨a, declared, rfl, rfl⟩

end

/-- In a block, what stands around it makes no difference to the types of the names declared inside. -/
theorem type_declarationOf {a : Cursor} (is : root.is .block = true) (declared : Declared root a) :
    (declarationOf ⟨a.node, a.ancestors ++ rest⟩).type = (declarationOf a).type := by
  obtain ⟨within, name⟩ := declared
  obtain ⟨node, ancestors⟩ := a
  match ancestors with
  | [] =>
    cases within
    rw [is_ne is (by decide)] at name
    cases name
  | [d] =>
    cases within.around
    simp [declarationOf, is_ne is, Node.isAny]
  | d :: n :: outer =>
    rw [List.cons_append, List.cons_append, declarationOf, declarationOf]
    dsimp only
    split
    · split <;> rfl
    · split
      · rfl
      · split
        · rfl
        · split <;> rfl

/-! ### The parameters of a callback -/

/-- The search among the parameters of a lambda finds the first of the name. -/
theorem parameter_eq_find? (nonempty : x ≠ "") (plain : hasOddParameter source x n = false) :
    (Receiver.parameter? source x n).map (fun d => (x, d.type.map (Node.text source))) =
      (lambdaParameters source n).find? (·.1 == x) := by
  rw [Receiver.parameter?, lambdaParameters]
  cases hps : n.child? .parameters with
  | none => rfl
  | some ps =>
    dsimp only
    split
    · rw [List.find?_singleton]
      dsimp only
      split
      · rename_i name
        rw [eq_of_beq name]
        rfl
      · rfl
    · split
      · rename_i inferred
        have same : ∀ p ∈ ps.namedChildren, p.text source = x → p.is .identifier = true := by
          intro p hp name
          rw [← Bool.not_eq_false]
          intro odd
          have absent := text_ne_of_odd plain hps hp (by rw [if_pos inferred]; exact odd)
          exact text_ne_of_holds absent p.self_mem_preorder name
        generalize ps.namedChildren = ns at same
        induction ns with
        | nil => rfl
        | cons p ns ih =>
          have later := ih fun q hq => same q (List.mem_cons_of_mem _ hq)
          rw [List.find?_cons, List.filter_cons]
          cases name : p.text source == x with
          | true =>
            have own := eq_of_beq name
            rw [same p List.mem_cons_self own, if_pos rfl, List.map_cons, List.find?_cons, own,
              beq_self_eq_true]
            rfl
          | false =>
            dsimp only
            rw [later]
            split
            · rw [List.map_cons, List.find?_cons, name]
            · rfl
      · generalize ps.namedChildren = ns
        induction ns with
        | nil => rfl
        | cons p ns ih =>
          rw [List.find?_cons, List.filterMap_cons]
          by_cases formal : p.is .formalParameter = true
          · rw [formal, Bool.true_and, if_pos rfl]
            dsimp only
            rw [List.find?_cons]
            dsimp only
            rw [← Receiver.isNamed]
            cases name : Receiver.isNamed source x p with
            | true =>
              rw [Receiver.isNamed] at name
              rw [eq_of_beq name]
              rfl
            | false => exact ih
          · rw [Bool.not_eq_true] at formal
            rw [formal, Bool.false_and, if_neg Bool.false_ne_true]
            by_cases spread : p.is .spreadParameter = true
            · rw [if_pos spread]
              dsimp only
              rw [List.find?_cons, beq_false_of_ne nonempty.symm]
              exact ih
            · rw [if_neg spread]
              exact ih

/-- For each parameter of a callback a name is declared. -/
theorem length_lambdaParameters_le (nonempty : x ≠ "") :
    ((lambdaParameters source n).filter (·.1 == x)).length ≤
      (((lambdaNames n).flatMap Item.names).filter (·.text source == x)).length := by
  rw [lambdaParameters, lambdaNames]
  cases n.child? .parameters with
  | none => exact Nat.le_refl _
  | some ps =>
    rw [Option.toList_some, List.flatMap_singleton]
    dsimp only
    split
    · rw [List.flatMap_singleton, Item.names, List.filter_singleton, List.filter_singleton]
      cases ps.text source == x <;> exact Nat.le_refl _
    · split
      · rw [List.flatMap_map, List.filter_map, List.length_map]
        show _ ≤ (((ps.namedChildren.filter (·.is .identifier)).flatMap fun p => [p]).filter _).length
        rw [List.flatMap_singleton']
        exact Nat.le_refl _
      · generalize ps.namedChildren = ns
        induction ns with
        | nil => exact Nat.le_refl _
        | cons p ns ih =>
          rw [List.flatMap_cons, List.flatMap_append, List.filter_append, List.length_append,
            List.filterMap_cons, parameterName]
          have later (more : Nat) := Nat.le_trans ih (Nat.le_add_left _ more)
          by_cases formal : p.is .formalParameter = true
          · rw [if_pos formal, if_pos formal]
            dsimp only
            rw [List.filter_cons, names_nameIn]
            split
            · rename_i name
              rw [← Receiver.isNamed] at name
              obtain ⟨m, own, named⟩ := (isNamed_name_iff nonempty).1 name
              rw [own, Option.toList_some, List.filter_singleton, named, beq_self_eq_true,
                List.length_cons, Nat.add_comm]
              exact Nat.add_le_add_left ih 1
            · exact later _
          · rw [if_neg formal, if_neg formal]
            by_cases spread : p.is .spreadParameter = true
            · rw [if_pos spread]
              dsimp only
              rw [List.filter_cons, beq_false_of_ne nonempty.symm]
              exact later _
            · rw [if_neg spread]
              exact later _

/-- The parameter that has a name is found under it. -/
theorem find?_of_mem_parameters (clear : Clear source x root) (nonempty : x ≠ "")
    (lambda : root.is .lambdaExpression = true) (role : root.role ≠ some .declarator)
    {type : Option String} (hp : (x, type) ∈ lambdaParameters source root) :
    (lambdaParameters source root).find? (·.1 == x) = some (x, type) := by
  have whole : layout root = lambdaNames root ++ codeIn root [.body] := layout_eq role lambda
  have once := clear.search root root.self_mem_preorder
  rw [overlooks, Bool.or_eq_false_iff, decide_eq_false_iff_not, Nat.not_lt, introduced, whole,
    List.flatMap_append, List.filter_append, List.length_append] at once
  have bound := @length_lambdaParameters_le source x root nonempty
  have mem : (x, type) ∈ (lambdaParameters source root).filter (·.1 == x) :=
    List.mem_filter.2 ⟨hp, beq_self_eq_true x⟩
  rw [← List.head?_filter]
  generalize (lambdaParameters source root).filter (·.1 == x) = l at bound mem
  cases l with
  | nil => cases mem
  | cons p l =>
    cases l with
    | nil => rw [List.mem_singleton.1 mem, List.head?_cons]
    | cons q l =>
      simp only [List.length_cons] at bound
      omega

theorem find?_eq_none_of_parameterNamed {parameters : List (String × Option String)}
    (h : parameterNamed parameters x = none) : parameters.find? (·.1 == x) = none := by
  rw [parameterNamed, Option.map_eq_none_iff, List.find?_eq_none] at h
  rw [List.find?_eq_none]
  intro p hp
  obtain ⟨i, hi⟩ := List.mem_iff_getElem?.1 hp
  exact h (p, i) (List.mem_reverse.2 (List.mem_zipIdx_iff_getElem?.2 hi))

/-- What a name is bound to has this name. -/
theorem exists_occurrence {parameters : List (String × Option String)} {block : Node} {c : Cursor}
    {b : Binding} (h : block.Belongs text) (hc : c ∈ block.cursors [])
    (name : c.node.is .identifier = true)
    (hb : (Resolution.ofBody source parameters block).bindingAt? c.node.start = some b) :
    ∃ o ∈ (Resolution.ofBody source parameters block).occurrences, o.binding = b ∧
      b.name = c.node.text source := by
  obtain ⟨o, hit, rfl⟩ := Option.map_eq_some_iff.1 hb
  have offset : o.offset = c.node.start :=
    eq_of_beq (List.find?_some (p := fun o : Occurrence => o.offset == c.node.start) hit)
  have ho := List.mem_of_find?_eq_some hit
  obtain ⟨_, m, hm, nameM, textM, startM⟩ := name_of_mem_occurrences ho
  have inside := (Node.map_node_cursors [] block).subset (List.mem_map.2 ⟨c, hc, rfl⟩)
  have here : m = c.node := @eq_of_identifiers Node _ id (identifiers_pairwise h) _ _ hm inside nameM name
    (startM.trans offset)
  exact ⟨o, ho, rfl, by rw [← textM, here]⟩

/-! ### The search from the body of a callback -/

section

variable {parameters : List (String × Option String)} {callback block : Node} {c : Cursor} {b : Binding}
  (clear : Clear source x callback) (lambda : callback.is .lambdaExpression = true)
  (role : callback.role ≠ some .declarator) (made : parameters = lambdaParameters source callback)
  (body : callback.child? .body = some block) (is : block.is .block = true) (h : block.Belongs text)
  (nonempty : x ≠ "") (hc : c ∈ block.cursors []) (name : c.node.is .identifier = true)
  (same : c.node.text source = x)
include clear lambda body h nonempty hc same

/-- The search for the declaration of a name in the body ends at the name that is declared where the rules
of scopes say, or it comes to the parameters. -/
theorem search_in_body (refers : Refers c) (outside : Option Target) :
    (∃ a, Declared block a ∧
      denotes? source (fun _ _ => false) x outside c.node c.ancestors = some (.declared a.node.start) ∧
      declarationAround? source x c.node (c.ancestors ++ callback :: rest) =
        some (declarationOf ⟨a.node, a.ancestors ++ callback :: rest⟩)) ∨
    denotes? source (fun _ _ => false) x outside c.node c.ancestors = outside ∧
      declarationAround? source x c.node (c.ancestors ++ callback :: rest) =
        (Receiver.parameter? source x callback).or (declarationAround? source x callback rest) := by
  have top : block.role ≠ some .declarator := by
    rw [Node.role_of_child? body]
    decide
  have inner : Clear source x block := clear.inside
    (Node.mem_preorder_of_mem_children (Node.mem_children_of_child? body) block.self_mem_preorder)
  have mentions : Mentions source x c.node :=
    ⟨⟨c.node, []⟩, mem_cursors.2 (Or.inl rfl), ⟨refers.name, True.intro⟩, same⟩
  have declaredBy : Receiver.declaredBy? source x ⟨callback, rest⟩ block =
      Receiver.parameter? source x callback := by
    rw [Receiver.declaredBy?, beq_iff_eq.1 lambda]
  rw [← declaredBy]
  exact search_along inner h top nonempty outside (Cursor.Within.of_mem_cursors block .here hc)
    refers.inCode mentions

omit lambda nonempty in
/-- What a name in the body denotes. -/
theorem bindingAt_eq_denotes_body (name : c.node.is .identifier = true) :
    (Refers c → ((Resolution.ofBody source parameters block).bindingAt? c.node.start).map
        (fun b => targetOf source parameters block b.id) =
      (denotes? source (fun _ _ => false) x (parameterNamed parameters x) c.node c.ancestors).map some) ∧
    (¬ Refers c → (Resolution.ofBody source parameters block).bindingAt? c.node.start = none) := by
  have top : block.role ≠ some .declarator := by
    rw [Node.role_of_child? body]
    decide
  have inner : Clear source x block := clear.inside
    (Node.mem_preorder_of_mem_children (Node.mem_children_of_child? body) block.self_mem_preorder)
  exact bindingAt_eq_denotes h top inner.walk hc name same

omit body h hc same in
/-- The search among the parameters of the callback. -/
theorem parameter_eq_find?_callback (made : parameters = lambdaParameters source callback) :
    (Receiver.parameter? source x callback).map (fun d => (x, d.type.map (Node.text source))) =
      parameters.find? (·.1 == x) := by
  have here := overlooksAs_eq clear callback.self_mem_preorder lambda
  rw [overlooksAs, Bool.or_eq_false_iff] at here
  rw [made]
  exact parameter_eq_find? nonempty here.1

include made name

/-- For a name in code that is not bound in the callback, the search goes on around it. -/
theorem found_of_free (refers : Refers c)
    (free : (Resolution.ofBody source parameters block).bindingAt? c.node.start = none) :
    declarationAround? source x c.node (c.ancestors ++ callback :: rest) =
      declarationAround? source x callback rest := by
  have denoted := (@bindingAt_eq_denotes_body source x text parameters callback block c clear body h hc same
    name).1 refers
  rw [free, Option.map_none, eq_comm, Option.map_eq_none_iff] at denoted
  rcases @search_in_body source x text rest callback block c clear lambda body h nonempty hc same refers
    (parameterNamed parameters x) with ⟨a, _, shown, _⟩ | ⟨shown, here⟩
  · rw [shown] at denoted
    cases denoted
  · have parameter := parameter_eq_find?_callback clear lambda nonempty made
    rw [shown] at denoted
    rw [find?_eq_none_of_parameterNamed denoted, Option.map_eq_none_iff] at parameter
    rw [here, parameter, Option.none_or]

include role is

/-- For a name that is bound in the callback, the search finds the declaration of what it is bound to. -/
theorem found_of_bound
    (hb : (Resolution.ofBody source parameters block).bindingAt? c.node.start = some b) :
    ∃ d, declarationAround? source x c.node (c.ancestors ++ callback :: rest) = some d ∧
      d.type.map (Node.text source) = b.type ∧
      ∀ offset, targetOf source parameters block b.id = some (.declared offset) →
        ∃ a, Declared block a ∧ a.node.text source = x ∧ a.node.start = offset ∧
          d = declarationOf ⟨a.node, a.ancestors ++ callback :: rest⟩ := by
  obtain ⟨inCode, elsewhere⟩ := @bindingAt_eq_denotes_body source x text parameters callback block c
    clear body h hc same name
  have refers : Refers c := by
    by_contra outside
    rw [elsewhere outside] at hb
    cases hb
  have denoted := inCode refers
  rw [hb, Option.map_some, eq_comm, Option.map_eq_some_iff] at denoted
  obtain ⟨t, denotes, target⟩ := denoted
  obtain ⟨o, ho, rfl, named⟩ := exists_occurrence h hc name hb
  rcases @search_in_body source x text rest callback block c clear lambda body h nonempty hc same refers
    (parameterNamed parameters x) with ⟨a, declared, shown, here⟩ | ⟨shown, here⟩
  · -- a declaration in the body, which is no parameter
    have own := shown.symm.trans denotes
    cases own
    rcases binding_of_mem_occurrences ho with ⟨i, parameter, _⟩ | ⟨offset, declaredAt, event⟩
    · rw [parameter] at target
      cases target
    · rw [declaredAt] at target
      cases target
      obtain ⟨a', declared', text', start', type'⟩ := declared_of_mem_scopeEvents h event
      cases declared.eq_of_start h declared' start'.symm
      refine ⟨_, here, ?_, ?_⟩
      · rw [type_declarationOf is declared, type']
      · intro offset declaredAt'
        rw [declaredAt] at declaredAt'
        cases declaredAt'
        exact ⟨a, declared, text'.trans (named.trans same), rfl, rfl⟩
  · obtain ⟨⟨_, j⟩, _, isParameter⟩ := Option.map_eq_some_iff.1 (shown.symm.trans denotes)
    rcases binding_of_mem_occurrences ho with ⟨i, parameter, found⟩ | ⟨offset, declaredAt, _⟩
    · have mem : (x, o.binding.type) ∈ parameters := by
        rw [← same, ← named]
        exact List.mem_of_getElem? found
      have first := parameter_eq_find?_callback clear lambda nonempty made
      rw [made, find?_of_mem_parameters clear nonempty lambda role (made ▸ mem),
        Option.map_eq_some_iff] at first
      obtain ⟨d, hd, type⟩ := first
      refine ⟨d, by rw [here, hd, Option.some_or], congrArg Prod.snd type, ?_⟩
      intro offset declaredAt
      rw [parameter] at declaredAt
      cases declaredAt
    · -- what is declared in the body is no parameter
      rw [declaredAt, ← isParameter] at target
      cases target

end

end MonoTap.Callback

namespace MonoTap

open Callback (Clear Declared Refers declarationOf targetOf)
open Java (CompilationUnit Cursor Node)

/-- A callback is a lambda, and its parameters are those of the lambda. -/
theorem parameters_of_callbackParts {source : Text.Source} {callback block : Node}
    {parameters : List (String × Option String)}
    (h : callbackParts source callback = .ok (parameters, block)) :
    callback.is .lambdaExpression = true ∧ parameters = Callback.lambdaParameters source callback := by
  rw [callbackParts] at h
  split at h
  · rename_i lambda
    dsimp only at h
    split at h
    · split at h
      · split at h
        · cases h
          exact ⟨lambda, rfl⟩
        · cases h
      · cases h
    · cases h
  · cases h

/-- A lambda that is an argument is no part of a declaration of variables. -/
theorem role_of_callbackOf {text : String} {call : Cursor}
    (clean : (CompilationUnit.ofString text).hasSyntaxErrors = false)
    (eligible : call ∈ eligibleCalls (CompilationUnit.ofString text))
    (lambda : (callbackOf call.node).is .lambdaExpression = true) :
    (callbackOf call.node).role ≠ some .declarator := by
  intro role
  obtain ⟨⟨belongs, invocation, _⟩, _⟩ := isCall_of_mem_eligibleCalls clean eligible
  obtain ⟨arguments, inside, roleA, mem⟩ := mem_of_callbackOf eligible
  have list : arguments.is .argumentList = true := belongs.is_of_role invocation inside roleA rfl
    (fun s => by cases s <;> decide +kernel) fun s => by cases s <;> decide +kernel
  have is : (callbackOf call.node).is .variableDeclarator = true :=
    (belongs.child inside).is_of_role list mem role rfl
      (fun s => by cases s <;> decide +kernel) fun s => by cases s <;> decide +kernel
  rw [Callback.is_ne lambda (by decide)] at is
  cases is

/-- Neither the walk nor the search departs from the rules of scopes in a callback as far as a name goes.
Then each name in the body that is bound there is declared where the search for its declaration ends:
the declaration has the type of the binding, and it is the one of the name at the offset where the
binding is declared, if that is not a parameter. If a name in code is not bound in the callback, the
search goes on around it. -/
theorem callback_declarations_found (file text x : String) :
    let u := CompilationUnit.ofString text
    u.hasSyntaxErrors = false → ∀ call parameters block site,
      IsSite u file call parameters block site →
      let callback := callbackOf call.node
      Clear u.source x callback →
      ∀ c ∈ block.cursors [], c.node.is .identifier = true → c.node.text u.source = x → ∀ outer,
        let binding? := (scopeOf u parameters block).bindingAt? c.node.start
        let found := Receiver.declaration? u.source x ⟨c.node, c.ancestors ++ callback :: outer⟩
        (∀ b, binding? = some b →
          ∃ d, found = some d ∧ d.type.map (Node.text u.source) = b.type ∧
            ∀ offset, targetOf u.source parameters block b.id = some (.declared offset) →
              ∃ a, Declared block a ∧ a.node.text u.source = x ∧ a.node.start = offset ∧
                d = declarationOf ⟨a.node, a.ancestors ++ callback :: outer⟩) ∧
        (binding? = none → Refers c → found = Receiver.declaration? u.source x ⟨callback, outer⟩) := by
  intro u clean call parameters block site isSite callback clear c hc name same outer binding? found
  have belongs : block.Belongs text.toList := isSite.belongs clean
  obtain ⟨body, is⟩ := callbackParts_eq_ok isSite.parts
  obtain ⟨lambda, made⟩ := parameters_of_callbackParts isSite.parts
  have role := role_of_callbackOf clean isSite.eligible lambda
  have within : Cursor.Within block c := Cursor.Within.of_mem_cursors block .here hc
  have nonempty : x ≠ "" := same ▸ (belongs.inside within.mem_preorder).text_ne_empty
  constructor
  · intro b hb
    exact Callback.found_of_bound clear lambda role made body is belongs nonempty hc name same hb
  · intro free refers
    exact Callback.found_of_free clear lambda made body belongs nonempty hc name same refers free

/-- A callback with a local variable that has the name of a field of the class around. -/
def hiddenFieldText : String :=
  "import reactor.core.publisher.*;class C\x7bA x;\x7bm.doAfterSuccessOrError((A v,B e)->" ++
    "\x7bD x=g(v);x.h();\x7d);\x7d\x7d"

set_option maxRecDepth 100000 in
theorem read_hiddenFieldText :
    let u := CompilationUnit.ofString hiddenFieldText
    u.hasSyntaxErrors = false ∧
      ((eligibleCalls u).any fun call =>
        (callbackOf call.node).preorder.all (fun n =>
          !Callback.departs u.source (fun _ _ => false) "x" n && !Callback.overlooks u.source "x" n) &&
        (callbackParts u.source (callbackOf call.node)).toOption.any fun parts =>
          (parts.2.cursors []).any fun c => c.node.is .identifier && c.node.text u.source == "x" &&
            ((scopeOf u parts.1 parts.2).bindingAt? c.node.start).any (·.type == some "D")) = true := by
  rw [CompilationUnit.ofString_eq_ofCharsOf]
  decide +kernel

theorem callback_declarations_found_of_hidden_field :
    let u := CompilationUnit.ofString hiddenFieldText
    u.hasSyntaxErrors = false ∧ ∃ call parameters block site,
      IsSite u "C.java" call parameters block site ∧ Clear u.source "x" (callbackOf call.node) ∧
      ∃ c ∈ block.cursors [], c.node.is .identifier = true ∧ c.node.text u.source = "x" ∧
        ∃ b, (scopeOf u parameters block).bindingAt? c.node.start = some b ∧ b.type = some "D" ∧
          ∀ outer, ∃ d, Receiver.declaration? u.source "x"
            ⟨c.node, c.ancestors ++ callbackOf call.node :: outer⟩ = some d ∧
            d.type.map (Node.text u.source) = some "D" := by
  intro u
  obtain ⟨clean, found⟩ := read_hiddenFieldText
  obtain ⟨call, eligible, found⟩ := List.any_eq_true.1 found
  obtain ⟨all, found⟩ := Bool.and_eq_true_iff.1 found
  have plain : ∀ n ∈ (callbackOf call.node).preorder,
      Callback.departs u.source (fun _ _ => false) "x" n = false ∧
        Callback.overlooks u.source "x" n = false := by
    intro n hn
    have here := List.all_eq_true.1 all n hn
    rw [Bool.and_eq_true, Bool.not_eq_true', Bool.not_eq_true'] at here
    exact here
  have clear : Clear u.source "x" (callbackOf call.node) :=
    ⟨fun n hn => (plain n hn).1, fun n hn => (plain n hn).2⟩
  cases parts : callbackParts u.source (callbackOf call.node) with
  | error reason =>
    rw [parts] at found
    cases found
  | ok pair =>
    obtain ⟨parameters, block⟩ := pair
    rw [parts] at found
    obtain ⟨c, hc, here⟩ := List.any_eq_true.1 found
    rw [Bool.and_eq_true, Bool.and_eq_true, beq_iff_eq] at here
    obtain ⟨⟨name, same⟩, bound⟩ := here
    obtain ⟨b, hb, type⟩ := (Option.any_eq_true _ _).1 bound
    have isSite : IsSite u "C.java" call parameters block
        (siteOf u "C.java" call parameters block) := ⟨eligible, parts, rfl⟩
    refine ⟨clean, call, parameters, block, _, isSite, clear, c, hc, name, same, b, hb, eq_of_beq type,
      fun outer => ?_⟩
    obtain ⟨d, here, declared, _⟩ := (callback_declarations_found "C.java" hiddenFieldText "x" clean call
      parameters block _ isSite clear c hc name same outer).1 b hb
    exact ⟨d, here, declared.trans (eq_of_beq type)⟩

end MonoTap

import Mathlib.Data.List.Nodup
import MonoTap.Proofs.Scoping
import MonoTap.Proofs.Sites
import MonoTap.Proofs.WalkInvariants

/-!
# Fresh names

The name of the parameter that a listener declares beside those of the callback. It is none of the
names that the walk over the callback meets, mentioned or declared, and of the names that are
possible it is the first one. The walk meets every name that is declared in code it visits, except for
components of records and for members of interfaces, annotation types and enumerations.
-/

set_option autoImplicit false

namespace MonoTap

/-! ### Numbered names -/

/-- Different numbers are written differently. -/
theorem toString_injective {i j : Nat} (same : toString i = toString j) : i = j := by
  have digits : Nat.toDigits 10 i = Nat.toDigits 10 j := by
    rw [← Nat.toList_repr, ← Nat.toList_repr]
    exact congrArg String.toList same
  rw [← @Nat.ofDigitChars_toDigits 10 i (by decide) (by decide), digits,
    Nat.ofDigitChars_toDigits (by decide) (by decide)]

/-- Of one name more than there are taken ones, one is free. -/
theorem exists_free_number (taken : List String) (base : String) :
    ∃ k ∈ List.range (taken.length + 1), base ++ toString (k + 1) ∉ taken := by
  by_contra none
  simp only [not_exists, not_and, not_not] at none
  have distinct : ((List.range (taken.length + 1)).map fun k => base ++ toString (k + 1)).Nodup := by
    apply List.Nodup.map _ List.nodup_range
    intro i j same
    have := toString_injective ((String.append_right_inj base).1 same)
    omega
  have inside : ((List.range (taken.length + 1)).map fun k => base ++ toString (k + 1)) ⊆ taken := by
    intro name mem
    obtain ⟨k, hk, rfl⟩ := List.mem_map.1 mem
    exact none k hk
  have := (distinct.subperm inside).length_le
  rw [List.length_map, List.length_range] at this
  omega

/-- The number after a name is the least one that makes it free. -/
theorem exists_numberedName (taken : List String) (base : String) :
    ∃ n, 0 < n ∧ numberedName taken base = base ++ toString n ∧ base ++ toString n ∉ taken ∧
      ∀ k, 0 < k → k < n → base ++ toString k ∈ taken := by
  have found : ((List.range (taken.length + 1)).find?
      fun k => !taken.contains (base ++ toString (k + 1))).isSome = true := by
    obtain ⟨k, hk, free⟩ := exists_free_number taken base
    exact List.find?_isSome.2 ⟨k, hk, by simpa using free⟩
  obtain ⟨k, least⟩ := Option.isSome_iff_exists.1 found
  obtain ⟨free, _, smaller⟩ := List.find?_range_eq_some.1 least
  refine ⟨k + 1, by omega, ?_, by simpa using free, fun j positive less => ?_⟩
  · rw [numberedName, List.find?_map]
    show (Option.map _ ((List.range (taken.length + 1)).find?
      fun k => !taken.contains (base ++ toString (k + 1)))).getD base = _
    rw [least]
    rfl
  · obtain ⟨i, rfl⟩ : ∃ i, j = i + 1 := ⟨j - 1, by omega⟩
    simpa using smaller i (by omega)

/-- A name made for a purpose is not taken. -/
theorem freshName_not_mem (taken : List String) (preferred : String) :
    freshName taken preferred ∉ taken := by
  rw [freshName]
  split
  · obtain ⟨n, _, name, free, _⟩ := exists_numberedName taken preferred
    rw [name]
    exact free
  · rename_i free
    simpa using free

namespace Callback

open Java (Kind Node)
open Text (Source)

variable {source : Source} {n m : Node} {events : List ScopeEvent} {r : Resolution} {name : String}

/-! ### The names that a walk meets -/

/-- Nested events declare the names that they do. -/
theorem Resolution.mem_declaredNames_foldl (h : Nested events) (opened : r.scopes ≠ []) :
    name ∈ (events.foldl run r).declaredNames ↔
      name ∈ r.declaredNames ∨ ∃ type offset, .declare name type offset ∈ events := by
  induction h generalizing r with
  | nil => simp
  | declare other type offset =>
    obtain ⟨scope, outer, scopes⟩ := List.exists_cons_of_ne_nil opened
    rw [List.foldl_cons, List.foldl_nil, run, scopes]
    simp only [List.mem_cons, List.not_mem_nil, or_false, ScopeEvent.declare.injEq]
    constructor
    · rintro (rfl | h)
      · exact .inr ⟨type, offset, rfl, rfl, rfl⟩
      · exact .inl h
    · rintro (h | ⟨_, _, rfl, _⟩)
      · exact .inr h
      · exact .inl rfl
  | mention other offset =>
    rw [List.foldl_cons, List.foldl_nil, run]
    split <;> simp
  | append before after ihBefore ihAfter =>
    rw [List.foldl_append, ihAfter (scopes_foldl_ne_nil before opened), ihBefore opened, or_assoc]
    simp only [List.mem_append, exists_or]
  | @scope events inside ih =>
    have inner := @ih (r.run .enter) (List.cons_ne_nil _ _)
    rw [List.foldl_append, List.foldl_cons]
    show name ∈ (events.foldl run (r.run .enter)).declaredNames ↔ _
    rw [inner]
    simp only [List.mem_append, List.mem_cons, reduceCtorEq, false_or, List.not_mem_nil, or_false]
    rfl

/-- A name that is free was free before or is mentioned. -/
theorem Resolution.mention_of_mem_freeNames (h : name ∈ (events.foldl run r).freeNames) :
    name ∈ r.freeNames ∨ ∃ offset, .mention name offset ∈ events := by
  induction events generalizing r with
  | nil => exact .inl h
  | cons e events ih =>
    rcases ih h with h | ⟨offset, later⟩
    · cases e with
      | enter | leave => exact .inl h
      | declare other type offset =>
        rw [run] at h
        split at h <;> exact .inl h
      | mention other offset =>
        rw [run] at h
        split at h
        · exact .inl h
        · rcases List.mem_cons.1 h with rfl | h
          · exact .inr ⟨offset, List.mem_cons_self⟩
          · exact .inl h
    · exact .inr ⟨offset, List.mem_cons_of_mem e later⟩

/-- The names kept by the walk over a callback are those of its parameters, those that are declared and
those that are mentioned. -/
theorem Resolution.mem_names_ofBody (parameters : List (String × Option String)) (body : Node) :
    let r := ofBody source parameters body
    name ∈ r.freeNames ++ r.declaredNames ↔
      name ∈ parameters.map Prod.fst ∨
      (∃ type offset, .declare name type offset ∈ scopeEvents source body) ∨
      ∃ offset, .mention name offset ∈ scopeEvents source body := by
  intro r
  have declared : name ∈ r.declaredNames ↔ name ∈ parameters.map Prod.fst ∨
      ∃ type offset, .declare name type offset ∈ scopeEvents source body := by
    have names : (parameterBindings parameters).map Binding.name = parameters.map Prod.fst := by
      rw [parameterBindings, List.map_map]
      show parameters.zipIdx.map (Prod.fst ∘ Prod.fst) = _
      rw [← List.map_map, List.zipIdx_map_fst]
    have opened : (start parameters).scopes ≠ [] := List.cons_ne_nil _ _
    have begun : name ∈ (start parameters).declaredNames ↔ name ∈ parameters.map Prod.fst := by
      rw [← names]
      exact List.mem_reverse
    rw [← begun]
    exact mem_declaredNames_foldl (nested_scopeEvents source body) opened
  rw [List.mem_append, declared]
  constructor
  · rintro (free | h | h)
    · rcases mention_of_mem_freeNames free with none | mention
      · cases none
      · exact .inr (.inr mention)
    · exact .inl h
    · exact .inr (.inl h)
  · rintro (h | h | ⟨offset, mention⟩)
    · exact .inr (.inl h)
    · exact .inr (.inr h)
    · rcases @bound_or_free _ (start parameters) _ _ mention with ⟨o, found, _, same⟩ | free
      · have known := (named_start.foldl (scopeEvents source body)).occurrences o found
        rw [same] at known
        exact .inr (declared.1 known)
      · exact .inl free

/-- A node at which a walk declares a name. -/
def WalkDeclares (source : Source) (m : Node) (name : String) : Prop :=
  ∃ type offset, .event (.declare name type offset) ∈ steps source m

/-- A walk declares a name if it does so at one of the nodes that it visits. -/
theorem exists_declare_iff :
    (∃ type offset, .declare name type offset ∈ scopeEvents source n) ↔
      ∃ m, Walked source n m ∧ WalkDeclares source m name := by
  constructor
  · rintro ⟨type, offset, h⟩
    generalize hsize : sizeOf n = size
    induction size using Nat.strongRecOn generalizing n with
    | ind size ih =>
      rw [scopeEvents_eq, eventsOf] at h
      obtain ⟨s, hs, he⟩ := List.mem_flatMap.1 h
      cases s with
      | event e =>
        cases List.mem_singleton.1 he
        exact ⟨n, .here, type, offset, hs⟩
      | visit c =>
        obtain ⟨m, walked, here⟩ := ih _ (hsize ▸ (inwards_steps source n).lt c hs) he rfl
        exact ⟨m, (Walked.step .here hs).trans walked, here⟩
  · rintro ⟨m, walked, type, offset, here⟩
    refine ⟨type, offset, scopeEvents_subset walked ?_⟩
    rw [scopeEvents_eq, eventsOf]
    exact List.mem_flatMap.2 ⟨_, here, List.mem_singleton_self _⟩

/-! ### Declarations that a walk misses -/

/-- The kinds of nodes whose names a walk does not declare: those of the components of a record, and of
members that are no fields of a class. -/
def undeclaredKinds : List Kind :=
  [.recordDeclaration, .interfaceBody, .annotationTypeBody, .enumBody]

/-- Steps that declare the names among some items. -/
def DeclareNames (source : Source) (l : List Step) (items : List Item) : Prop :=
  ∀ d, .name d ∈ items → ∃ type, .event (.declare (d.text source) type d.start) ∈ l

section

variable {l more : List Step} {items others : List Item}

theorem DeclareNames.append (first : DeclareNames source l items)
    (second : DeclareNames source more others) : DeclareNames source (l ++ more) (items ++ others) := by
  intro d hd
  rcases List.mem_append.1 hd with h | h
  · obtain ⟨type, event⟩ := first d h
    exact ⟨type, List.mem_append_left _ event⟩
  · obtain ⟨type, event⟩ := second d h
    exact ⟨type, List.mem_append_right _ event⟩

theorem DeclareNames.both (first : DeclareNames source l items)
    (second : DeclareNames source l others) : DeclareNames source l (items ++ others) := by
  intro d hd
  rcases List.mem_append.1 hd with h | h
  · exact first d h
  · exact second d h

theorem DeclareNames.flatMap {α : Type} {as : List α} {f : α → List Step} {g : α → List Item}
    (each : ∀ a ∈ as, DeclareNames source (f a) (g a)) :
    DeclareNames source (as.flatMap f) (as.flatMap g) := by
  intro d hd
  obtain ⟨a, ha, hd⟩ := List.mem_flatMap.1 hd
  obtain ⟨type, event⟩ := each a ha d hd
  exact ⟨type, List.mem_flatMap.2 ⟨a, ha, event⟩⟩

theorem DeclareNames.inScope (h : DeclareNames source l items) :
    DeclareNames source (inScope l) items := by
  intro d hd
  obtain ⟨type, event⟩ := h d hd
  exact ⟨type, List.mem_cons_of_mem _ (List.mem_append_left _ event)⟩

/-- Where there are no names, none need be declared. -/
theorem declareNames_partItems (l : List Step) (ns : List Node) :
    DeclareNames source l (partItems ns) := by
  intro d hd
  obtain ⟨c, _, h⟩ := List.mem_map.1 hd
  cases h

theorem declareNames_nil (l : List Step) : DeclareNames source l [] :=
  fun _ hd => (List.not_mem_nil hd).elim

theorem declareNames_nameIn (n : Node) (type : Option Node) :
    DeclareNames source (declareName source (n.child? .name) type) (nameIn n) := by
  intro d hd
  obtain ⟨c, found, same⟩ := List.mem_map.1 hd
  cases same
  rw [Option.mem_toList.1 found, declareName]
  exact ⟨_, List.mem_singleton_self _⟩

theorem declareNames_parameterName (p : Node) :
    DeclareNames source (declareParameter source p) (parameterName p) := by
  rw [declareParameter, parameterName]
  split
  · exact declareNames_nameIn p _
  · split
    · cases p.ofKind? .variableDeclarator with
      | none => exact declareNames_nil _
      | some d => simpa using declareNames_nameIn d none
    · exact declareNames_nil _

theorem declareNames_parameterNames (n : Node) :
    DeclareNames source ((((n.child? .parameters).map Node.namedChildren).getD []).flatMap
      (declareParameter source)) (parameterNames n) := by
  rw [parameterNames]
  cases n.child? .parameters with
  | none => exact declareNames_nil _
  | some ps =>
    simp only [Option.map_some, Option.getD_some, Option.toList_some, List.flatMap_singleton]
    exact .flatMap fun p _ => declareNames_parameterName p

theorem declareNames_name (d : Node) : DeclareNames source (declareName source (some d) none) [.name d] := by
  intro c hc
  cases List.mem_singleton.1 hc
  exact ⟨none, List.mem_singleton_self _⟩

theorem declareNames_lambdaNames (n : Node) :
    DeclareNames source (declareLambdaParameters source n) (lambdaNames n) := by
  rw [declareLambdaParameters, lambdaNames]
  cases n.child? .parameters with
  | none => exact declareNames_nil _
  | some ps =>
    simp only [Option.toList_some, List.flatMap_singleton]
    split
    · exact declareNames_name ps
    · split
      · rw [List.map_eq_flatMap]
        exact .flatMap fun p _ => declareNames_name p
      · exact .flatMap fun p _ => declareNames_parameterName p

theorem declareNames_fields (body : Node) :
    DeclareNames source (declareFields source body) (memberNames body .fieldDeclaration) :=
  .flatMap fun _ _ => .flatMap fun d _ => declareNames_nameIn d _

/-- At a node of any other kind, a walk declares the names that are declared there. -/
theorem declareNames_steps {k : Kind} (label : n.label = .kind k) (other : k ∉ undeclaredKinds) :
    DeclareNames source (steps source n) (layoutAs n k) := by
  have ordered {ns : List Node} {l more : List Step} {items : List Item}
      (h : DeclareNames source l items) :
      DeclareNames source (l ++ more) (items ++ partItems ns) :=
    h.append (declareNames_partItems more ns)
  have plain {l : List Step} (ns : List Node) : DeclareNames source l (partItems ns) :=
    declareNames_partItems l ns
  rw [steps, label]
  dsimp only
  cases k
  case methodDeclaration => exact (ordered (declareNames_parameterNames n)).inScope
  case constructorDeclaration => exact (ordered (declareNames_parameterNames n)).inScope
  case lambdaExpression => exact (ordered (declareNames_lambdaNames n)).inScope
  case classBody => exact (ordered (declareNames_fields n)).inScope
  case localVariableDeclaration =>
    exact .flatMap fun d _ => (declareNames_nameIn d _).append (plain [d])
  case enhancedForStatement =>
    exact (ordered ((plain _).append (declareNames_nameIn n _))).inScope
  case catchFormalParameter => exact declareNames_nameIn n _
  case instanceofExpression => exact (plain _).append (declareNames_nameIn n _)
  case resource =>
    cases named : n.child? .name with
    | none =>
      rw [layoutAs, named]
      exact plain _
    | some name =>
      have declared : DeclareNames source
          (visitParts n [.value] ++ declareName source (some name) (n.child? .type)) (nameIn n) := by
        rw [← named]
        exact (declareNames_nil _).append (declareNames_nameIn n _)
      rw [layoutAs, named]
      exact declared.both (plain _)
  case tryWithResourcesStatement => exact (plain _).both (plain _)
  case recordDeclaration | interfaceBody | annotationTypeBody | enumBody =>
    exact absurd (by decide) other
  all_goals first
    | exact plain _
    | exact declareNames_nil _

end

/-- At a node of any other kind, a walk declares the names that are declared there by the rules of
scopes. -/
theorem walkDeclares_of_layout (other : n.isAny undeclaredKinds = false) {d : Node}
    (declared : .name d ∈ layout n) : WalkDeclares source n (d.text source) := by
  rw [layout] at declared
  split at declared
  · obtain ⟨c, _, h⟩ := List.mem_map.1 declared
    cases h
  · split at declared
    · cases declared
    · rename_i k label
      have kind : k ∉ undeclaredKinds := by
        intro mem
        have none := List.any_eq_false.1 other k mem
        rw [Node.is, label, beq_self_eq_true] at none
        exact none rfl
      obtain ⟨type, event⟩ := declareNames_steps label kind d declared
      exact ⟨type, d.start, event⟩

theorem mem_sortedNames {names : List String} : name ∈ sortedNames names ↔ name ∈ names := by
  rw [sortedNames, List.mem_mergeSort, List.mem_eraseDups]

end Callback

open Callback (WalkDeclares Resolution Walked undeclaredKinds)
open Java (CompilationUnit Cursor)

/-- The names that are taken at a site are those that the walk over the callback keeps. -/
theorem mem_takenNames {u : CompilationUnit} {file : String} {call : Cursor}
    {parameters : List (String × Option String)} {block : Java.Node} {name : String}
    (parts : callbackParts u.source (callbackOf call.node) = .ok (parameters, block)) :
    name ∈ (siteOf u file call parameters block).takenNames ↔
      name ∈ (scopeOf u parameters block).freeNames ++ (scopeOf u parameters block).declaredNames := by
  have two := length_of_callbackParts parts
  obtain ⟨value, error, rfl⟩ : ∃ value error, parameters = [value, error] :=
    List.length_eq_two.1 two
  have own : name ∈ [value.1, error.1] →
      name ∈ (scopeOf u [value, error] block).freeNames ++
        (scopeOf u [value, error] block).declaredNames :=
    fun mem => (Resolution.mem_names_ofBody [value, error] block).2 (.inl mem)
  show name ∈ value.1 :: error.1 :: Callback.sortedNames _ ↔ _
  rw [List.mem_cons, List.mem_cons, Callback.mem_sortedNames]
  constructor
  · rintro (rfl | rfl | h)
    · exact own List.mem_cons_self
    · exact own (List.mem_cons_of_mem _ List.mem_cons_self)
    · exact h
  · exact fun h => .inr (.inr h)

/-- At a call site the names that are taken are those of the parameters of the callback, those that the
walk declares at a node it visits, and those of the identifiers it visits. Among them are all names
declared at a visited node, except for components of records and for members of interfaces, annotation
types and enumerations. The name of the parameter of the last method is none of them: it is the
preferred name if that is free, and otherwise this name with the least number from one on that makes
it free. -/
theorem termination_name_is_fresh (u : CompilationUnit) (file : String) (call : Cursor)
    (site : CallSite) (found : CallSite.ofCall u file call = .ok site) (settings : Settings)
    (elementType : String) :
    let chosen := (site.names settings elementType).termination
    let preferred := settings.terminationName
    (∃ parameters block,
      callbackParts u.source (callbackOf call.node) = .ok (parameters, block) ∧
      (∀ name, name ∈ site.takenNames ↔ name ∈ parameters.map Prod.fst ∨
        ∃ m, Walked u.source block m ∧
          (WalkDeclares u.source m name ∨ (m.is .identifier = true ∧ m.text u.source = name))) ∧
      ∀ m, Walked u.source block m → m.isAny undeclaredKinds = false →
        ∀ d, .name d ∈ Callback.layout m → d.text u.source ∈ site.takenNames) ∧
    chosen ∉ site.takenNames ∧
    (preferred ∉ site.takenNames → chosen = preferred) ∧
    (preferred ∈ site.takenNames → ∃ n, 0 < n ∧ chosen = preferred ++ toString n ∧
      ∀ k, 0 < k → k < n → preferred ++ toString k ∈ site.takenNames) := by
  intro chosen preferred
  refine ⟨?_, freshName_not_mem _ _, freshName_of_not_mem, fun taken => ?_⟩
  · rw [ofCall_eq] at found
    cases parts : callbackParts u.source (callbackOf call.node) with
    | error reason =>
      rw [parts] at found
      cases found
    | ok pair =>
      obtain ⟨parameters, block⟩ := pair
      rw [parts] at found
      cases found
      have taken (name : String) :
          name ∈ (siteOf u file call parameters block).takenNames ↔
            name ∈ parameters.map Prod.fst ∨ ∃ m, Walked u.source block m ∧
              (WalkDeclares u.source m name ∨
                (m.is .identifier = true ∧ m.text u.source = name)) := by
        have kept := @Resolution.mem_names_ofBody u.source name parameters block
        rw [mem_takenNames parts]
        refine kept.trans (or_congr_right ?_)
        rw [Callback.exists_declare_iff]
        simp only [Callback.mention_iff_walked, and_or_left, exists_or]
        refine or_congr_right ⟨?_, ?_⟩
        · rintro ⟨_, m, walked, is, name, _⟩
          exact ⟨m, walked, is, name⟩
        · rintro ⟨m, walked, is, name⟩
          exact ⟨m.start, m, walked, is, name, rfl⟩
      refine ⟨parameters, block, rfl, taken, fun m walked other d declared => ?_⟩
      exact (taken _).2 (.inr ⟨m, walked, .inl (Callback.walkDeclares_of_layout other declared)⟩)
  · obtain ⟨n, positive, name, _, smaller⟩ := exists_numberedName site.takenNames preferred
    refine ⟨n, positive, ?_, smaller⟩
    show freshName site.takenNames preferred = _
    rw [freshName, if_pos (List.contains_iff_mem.2 taken), name]

/-- A callback in which the preferred name and the first numbered one are in use. -/
def numberedText : String :=
  "class C\x7b\x7bm.doAfterSuccessOrError((v,e)->" ++
    "\x7bint terminationType1=v;return terminationType;\x7d);\x7d\x7d"

set_option maxRecDepth 100000 in
theorem read_numberedText :
    let u := CompilationUnit.ofString numberedText
    ((u.root.cursors []).any fun call =>
      (callbackParts u.source (callbackOf call.node)).toOption.any fun parts =>
        (scopeOf u parts.1 parts.2).freeNames ++ (scopeOf u parts.1 parts.2).declaredNames ==
          ["terminationType", "terminationType1", "e", "v"]) = true := by
  rw [CompilationUnit.ofString_eq_ofCharsOf]
  decide +kernel

/-- There the parameter has the second numbered name. -/
theorem termination_name_is_fresh_of_numbered :
    let u := CompilationUnit.ofString numberedText
    ∃ call site, CallSite.ofCall u "C.java" call = .ok site ∧
      "terminationType" ∈ site.takenNames ∧
      (site.names {} "A").termination = "terminationType2" := by
  intro u
  obtain ⟨call, _, found⟩ := List.any_eq_true.1 read_numberedText
  cases parts : callbackParts u.source (callbackOf call.node) with
  | error reason =>
    rw [parts] at found
    cases found
  | ok pair =>
    obtain ⟨parameters, block⟩ := pair
    rw [parts] at found
    have names : (scopeOf u parameters block).freeNames ++ (scopeOf u parameters block).declaredNames =
        ["terminationType", "terminationType1", "e", "v"] := eq_of_beq found
    have taken (name : String) : name ∈ (siteOf u "C.java" call parameters block).takenNames ↔
        name ∈ ["terminationType", "terminationType1", "e", "v"] := by
      rw [mem_takenNames parts, names]
    have site : CallSite.ofCall u "C.java" call = .ok (siteOf u "C.java" call parameters block) := by
      rw [ofCall_eq, parts]
      rfl
    have inUse := (taken "terminationType").2 (by decide)
    obtain ⟨_, free, _, numbered⟩ := termination_name_is_fresh u "C.java" call _ site {} "A"
    obtain ⟨n, positive, name, smaller⟩ := numbered inUse
    refine ⟨call, _, site, inUse, ?_⟩
    rw [taken, name] at free
    rw [name]
    by_cases one : n = 1
    · subst one
      exact absurd (by decide) free
    · by_cases two : n = 2
      · subst two
        decide
      · have second := smaller 2 (by decide) (by omega)
        rw [taken] at second
        exact absurd second (by decide)

end MonoTap

import Mathlib.Data.List.Basic
import MonoTap.Proofs.MovedTrees
import MonoTap.Proofs.Walk

/-!
# Scopes and carriage returns

With carriage returns put in, a name is declared and mentioned at the moved offsets, and denotes the
binding with the same number.
-/

set_option autoImplicit false

namespace MonoTap.Callback

open Java (Node Kind Role)
open Text (Source Ends crlfText crlfText_inj)

variable {s : Source} {text : String} {n : Node}

/-! ### Steps of a walk -/

/-- The binding with a carriage return put before each line feed: a type may go over several lines. -/
def Binding.crlf (b : Binding) : Binding :=
  ⟨b.id, crlfText b.name, b.type.map crlfText⟩

/-- The event with a carriage return put before each line feed. -/
def ScopeEvent.crlf (s : Source) : ScopeEvent → ScopeEvent
  | .enter => .enter
  | .leave => .leave
  | .declare name type offset => .declare (crlfText name) (type.map crlfText) (s.moved offset)
  | .mention name offset => .mention (crlfText name) (s.moved offset)

/-- The step with a carriage return put before each line feed. -/
def Step.crlf (s : Source) : Step → Step
  | .event e => .event (e.crlf s)
  | .visit n => .visit (n.crlf s)

/-- A node, if there is one, that has the same text but for the carriage returns. -/
def Steady (s : Source) (n : Option Node) : Prop :=
  ∀ m ∈ n, (m.crlf s).text s.crlf = crlfText (m.text s)

theorem steady_none (s : Source) : Steady s none := fun _ hm => by cases hm

theorem steady_child (h : n.Belongs text.toList) (r : Role) : Steady s (n.child? r) :=
  fun _ hm => (h.child (Node.mem_children_of_child? hm)).text_crlf
    (Node.not_lineComment (h.not_isComment_of_child? hm))

theorem steady_of_is {c : Node} (h : n.Belongs text.toList) (hc : c ∈ n.namedChildren) {k : Kind}
    (is : c.is k = true) (other : k.isComment = false) : Steady s (some c) := by
  intro m hm
  cases hm
  exact (h.child (Node.mem_children_of_mem_namedChildren hc)).text_crlf
    (Node.not_lineComment (Node.isComment_of_is is other))

theorem steady_ofKind (h : n.Belongs text.toList) {k : Kind} (other : k.isComment = false) :
    Steady s (n.ofKind? k) := by
  intro m hm
  have found := List.find?_some hm
  exact steady_of_is h (List.mem_of_find?_eq_some hm) found other m rfl

theorem visits_crlf (ns : List Node) :
    visits (ns.map (Node.crlf s)) = (visits ns).map (Step.crlf s) := by
  rw [visits, visits, List.map_map, List.map_map]
  rfl

theorem inScope_crlf {l m : List Step} (h : l = m.map (Step.crlf s)) :
    inScope l = (inScope m).map (Step.crlf s) := by
  rw [inScope, inScope, h, List.map_append, List.map_cons]
  rfl

theorem visitParts_crlf (n : Node) (parts : List Role) :
    visitParts (n.crlf s) parts = (visitParts n parts).map (Step.crlf s) := by
  rw [visitParts, visitParts, List.map_flatMap]
  refine congrArg (List.flatMap · parts) (funext fun part => ?_)
  rw [Node.childrenOf_crlf, visits_crlf]

theorem declareName_crlf {name type : Option Node} (hname : Steady s name) (htype : Steady s type) :
    declareName s.crlf (name.map (Node.crlf s)) (type.map (Node.crlf s)) =
      (declareName s name type).map (Step.crlf s) := by
  cases name with
  | none => rfl
  | some n =>
    have own := hname n rfl
    cases type with
    | none =>
      simp only [declareName, Option.map_some, Option.map_none, own, Node.start_crlf]
      rfl
    | some t =>
      have spelled := htype t rfl
      simp only [declareName, Option.map_some, own, spelled, Node.start_crlf]
      rfl

/-- Steps for some nodes are the moved steps if they are for each of them. -/
theorem flatMap_crlf {f g : Node → List Step} {ns : List Node}
    (each : ∀ c ∈ ns, f (c.crlf s) = (g c).map (Step.crlf s)) :
    (ns.map (Node.crlf s)).flatMap f = (ns.flatMap g).map (Step.crlf s) := by
  rw [List.flatMap_map, List.map_flatMap]
  rw [List.flatMap_def, List.flatMap_def]
  exact congrArg List.flatten (List.map_congr_left each)

theorem declareParameter_crlf (h : n.Belongs text.toList) :
    declareParameter s.crlf (n.crlf s) = (declareParameter s n).map (Step.crlf s) := by
  rw [declareParameter, declareParameter, Node.is_crlf, Node.is_crlf, Node.child?_crlf,
    Node.child?_crlf, Node.ofKind?_crlf]
  split
  · exact declareName_crlf (steady_child h _) (steady_child h _)
  · split
    · have name : ((n.ofKind? .variableDeclarator).map (Node.crlf s)).bind (·.child? .name) =
          ((n.ofKind? .variableDeclarator).bind (·.child? .name)).map (Node.crlf s) := by
        cases n.ofKind? .variableDeclarator with
        | none => rfl
        | some d => exact d.child?_crlf .name
      rw [name]
      refine declareName_crlf ?_ (steady_none s)
      intro m hm
      cases found : n.ofKind? .variableDeclarator with
      | none =>
        rw [found] at hm
        cases hm
      | some d =>
        rw [found] at hm
        have inside := Node.mem_children_of_mem_namedChildren (List.mem_of_find?_eq_some found)
        exact steady_child (h.child inside) .name m hm
    · rfl

theorem declareLambdaParameters_crlf (h : n.Belongs text.toList) :
    declareLambdaParameters s.crlf (n.crlf s) =
      (declareLambdaParameters s n).map (Step.crlf s) := by
  rw [declareLambdaParameters, declareLambdaParameters, Node.child?_crlf]
  have steady := steady_child (s := s) h .parameters
  cases found : n.child? .parameters with
  | none => rfl
  | some ps =>
    rw [found] at steady
    have belongs := h.child (Node.mem_children_of_child? found)
    simp only [Option.map_some, Node.is_crlf, Node.namedChildren_crlf]
    split
    · exact declareName_crlf steady (steady_none s)
    · split
      · rw [Node.filter_map_crlf fun m => Node.is_crlf m _]
        refine flatMap_crlf fun p hp => ?_
        obtain ⟨hp, is⟩ := List.mem_filter.1 hp
        exact declareName_crlf (steady_of_is belongs hp is rfl) (steady_none s)
      · exact flatMap_crlf fun p hp =>
          declareParameter_crlf (belongs.child (Node.mem_children_of_mem_namedChildren hp))

theorem declareFields_crlf (h : n.Belongs text.toList) :
    declareFields s.crlf (n.crlf s) = (declareFields s n).map (Step.crlf s) := by
  rw [declareFields, declareFields, Node.namedChildren_crlf,
    Node.filter_map_crlf fun m => Node.is_crlf m _]
  refine flatMap_crlf fun field hfield => ?_
  have own := h.child (Node.mem_children_of_mem_namedChildren (List.mem_filter.1 hfield).1)
  rw [Node.childrenOf_crlf]
  refine flatMap_crlf fun d hd => ?_
  have inside := own.child (Node.mem_children_of_mem_childrenOf hd)
  rw [Node.child?_crlf, Node.child?_crlf]
  exact declareName_crlf (steady_child inside _) (steady_child own _)

/-- The walk over a moved node takes the moved steps. -/
theorem steps_crlf (h : n.Belongs text.toList) :
    steps s.crlf (n.crlf s) = (steps s n).map (Step.crlf s) := by
  have children : visits (n.crlf s).namedChildren =
      (visits n.namedChildren).map (Step.crlf s) := by
    rw [Node.namedChildren_crlf, visits_crlf]
  have parts := fun parts => visitParts_crlf (s := s) n parts
  have named (part of : Role) : declareName s.crlf ((n.crlf s).child? part)
      ((n.crlf s).child? of) = (declareName s (n.child? part) (n.child? of)).map (Step.crlf s) := by
    rw [Node.child?_crlf, Node.child?_crlf]
    exact declareName_crlf (steady_child h part) (steady_child h of)
  have declarators {f g : Node → List Step}
      (each : ∀ d ∈ n.childrenOf .declarator, f (d.crlf s) = (g d).map (Step.crlf s)) :
      ((n.crlf s).childrenOf .declarator).flatMap f =
        ((n.childrenOf .declarator).flatMap g).map (Step.crlf s) := by
    rw [Node.childrenOf_crlf]
    exact flatMap_crlf each
  have values (d : Node) : visits ((d.crlf s).childrenOf .value) =
      (visits (d.childrenOf .value)).map (Step.crlf s) := by
    rw [Node.childrenOf_crlf, visits_crlf]
  have parameters : ((((n.crlf s).child? .parameters).map Node.namedChildren).getD []).flatMap
        (declareParameter s.crlf) =
      ((((n.child? .parameters).map Node.namedChildren).getD []).flatMap
        (declareParameter s)).map (Step.crlf s) := by
    rw [Node.child?_crlf]
    cases found : n.child? .parameters with
    | none => rfl
    | some ps =>
      have belongs := h.child (Node.mem_children_of_child? found)
      show ((ps.crlf s).namedChildren).flatMap _ = _
      rw [Node.namedChildren_crlf]
      exact flatMap_crlf fun p hp =>
        declareParameter_crlf (belongs.child (Node.mem_children_of_mem_namedChildren hp))
  have body : visits ((n.crlf s).child? .body).toList =
      (visits (n.child? .body).toList).map (Step.crlf s) := by
    rw [Node.child?_crlf]
    cases n.child? .body <;> rfl
  unfold steps
  rw [Node.label_crlf]
  split
  · rfl
  · rename_i k label
    split
    -- identifier
    · have own := h.text_crlf (s := s) (by rw [Node.is, label]; rfl)
      rw [own, Node.start_crlf]
      rfl
    · exact parts _
    · exact parts _
    -- methodReference
    · rw [Node.namedChildren_crlf, ← List.map_take, visits_crlf]
    -- labeledStatement
    · rw [Node.namedChildren_crlf, Node.filter_map_crlf fun m => by rw [Node.is_crlf], visits_crlf]
    · rfl
    · rfl
    · rfl
    · rfl
    · exact parts _
    · exact parts _
    · exact parts _
    -- localVariableDeclaration
    · refine declarators fun d hd => ?_
      have inside := h.child (Node.mem_children_of_mem_childrenOf hd)
      rw [List.map_append, values, Node.child?_crlf, Node.child?_crlf,
        declareName_crlf (steady_child inside _) (steady_child h _)]
    -- fieldDeclaration
    · exact declarators fun d _ => values d
    -- classBody
    · exact inScope_crlf (by rw [declareFields_crlf h, children, List.map_append])
    -- methodDeclaration and constructorDeclaration
    · exact inScope_crlf (by rw [parameters, parts, List.map_append])
    · exact inScope_crlf (by rw [parameters, parts, List.map_append])
    -- lambdaExpression
    · exact inScope_crlf (by rw [declareLambdaParameters_crlf h, parts, List.map_append])
    -- enhancedForStatement
    · exact inScope_crlf (by rw [parts, parts, named, List.map_append, List.map_append])
    iterate 7 · exact inScope_crlf children
    -- catchFormalParameter
    · rw [Node.child?_crlf, Node.ofKind?_crlf]
      exact declareName_crlf (steady_child h _) (steady_ofKind h rfl)
    -- resource
    · have spelled := steady_child (s := s) h .type
      have called := steady_child (s := s) h .name
      rw [Node.child?_crlf]
      cases found : n.child? .name with
      | none => exact children
      | some m =>
        rw [found] at called
        show visitParts (n.crlf s) _ ++ declareName s.crlf ((some m).map (Node.crlf s))
          ((n.crlf s).child? .type) = _
        rw [parts, Node.child?_crlf, declareName_crlf called spelled, List.map_append]
    -- instanceofExpression
    · rw [parts, named, List.map_append]
    -- recordPatternComponent
    · rw [Node.namedChildren_crlf]
      refine flatMap_crlf fun c hc => ?_
      rw [Node.is_crlf]
      split
      · rename_i is
        exact declareName_crlf (steady_of_is h hc is rfl) (steady_none s)
      · rfl
    iterate 5 · exact body
    · exact children

theorem scopeEvents_crlf (h : n.Belongs text.toList) :
    scopeEvents s.crlf (n.crlf s) = (scopeEvents s n).map (ScopeEvent.crlf s) := by
  generalize size : sizeOf n = k
  induction k using Nat.strongRecOn generalizing n with
  | ind k ih =>
    rw [scopeEvents_eq, scopeEvents_eq, steps_crlf h, eventsOf, eventsOf, List.flatMap_map,
      List.map_flatMap, List.flatMap_def, List.flatMap_def]
    refine congrArg List.flatten (List.map_congr_left fun step hstep => ?_)
    cases step with
    | event e => rfl
    | visit c =>
      have smaller := (inwards_steps s n).lt c hstep
      exact ih (sizeOf c) (size ▸ smaller) (h.inside ((inside_steps s n).mem_of_visit c hstep)) rfl

/-! ### Names and what they denote -/

/-- The occurrence with a carriage return put before each line feed. -/
def Occurrence.crlf (s : Source) (o : Occurrence) : Occurrence :=
  ⟨s.moved o.offset, o.binding.crlf⟩

/-- A name and a type with a carriage return put before each line feed. -/
def crlfParameter (p : String × Option String) : String × Option String :=
  (crlfText p.1, p.2.map crlfText)

namespace Resolution

/-- The state of a run with a carriage return put before each line feed. -/
def crlf (s : Source) (r : Resolution) : Resolution where
  nextId := r.nextId
  scopes := r.scopes.map (·.map Binding.crlf)
  occurrences := r.occurrences.map (Occurrence.crlf s)
  freeNames := r.freeNames.map crlfText
  declaredNames := r.declaredNames.map crlfText

variable {r : Resolution} {parameters : List (String × Option String)} {block : Node}

theorem lookup?_crlf (r : Resolution) (name : String) :
    (r.crlf s).lookup? (crlfText name) = (r.lookup? name).map Binding.crlf := by
  have same : ((fun b : Binding => b.name == crlfText name) ∘ Binding.crlf) =
      fun b : Binding => b.name == name := by
    funext b
    rw [Function.comp_apply, Bool.eq_iff_iff, beq_iff_eq, beq_iff_eq]
    exact crlfText_inj
  rw [lookup?, lookup?]
  show (r.scopes.map (·.map Binding.crlf)).findSome? _ = _
  induction r.scopes with
  | nil => rfl
  | cons scope scopes ih =>
    rw [List.map_cons, List.findSome?_cons, List.findSome?_cons, ih, List.find?_map, same]
    cases scope.find? fun b => b.name == name <;> rfl

theorem run_crlf (r : Resolution) (e : ScopeEvent) :
    (r.crlf s).run (e.crlf s) = (r.run e).crlf s := by
  cases e with
  | enter => rfl
  | leave =>
    show { r.crlf s with scopes := (r.scopes.map (List.map Binding.crlf)).tail } = _
    rw [← List.map_tail]
    rfl
  | declare name type offset =>
    obtain ⟨nextId, scopes, _, _, _⟩ := r
    cases scopes <;> rfl
  | mention name offset =>
    simp only [ScopeEvent.crlf, run, lookup?_crlf]
    cases r.lookup? name <;> rfl

theorem foldl_run_crlf (r : Resolution) (events : List ScopeEvent) :
    (events.map (ScopeEvent.crlf s)).foldl run (r.crlf s) = (events.foldl run r).crlf s := by
  induction events generalizing r with
  | nil => rfl
  | cons e events ih => rw [List.map_cons, List.foldl_cons, List.foldl_cons, run_crlf, ih]

theorem parameterBindings_crlf (parameters : List (String × Option String)) :
    parameterBindings (parameters.map crlfParameter) =
      (parameterBindings parameters).map Binding.crlf := by
  rw [parameterBindings, parameterBindings, List.zipIdx_map, List.map_map, List.map_map]
  rfl

theorem start_crlf (parameters : List (String × Option String)) :
    start (parameters.map crlfParameter) = (start parameters).crlf s := by
  simp only [start, crlf, parameterBindings_crlf, List.length_map, List.map_reverse, List.map_map,
    List.map_cons, List.map_nil]
  rfl

/-- The names in a callback denote the bindings with the same numbers. -/
theorem ofBody_crlf (h : block.Belongs text.toList) :
    ofBody s.crlf (parameters.map crlfParameter) (block.crlf s) =
      (ofBody s parameters block).crlf s := by
  rw [ofBody, scopeEvents_crlf h, start_crlf, foldl_run_crlf, ofBody]

theorem bindingAt?_crlf (r : Resolution) (offset : Nat) :
    (r.crlf s).bindingAt? (s.moved offset) = (r.bindingAt? offset).map Binding.crlf := by
  have same : ((fun o : Occurrence => o.offset == s.moved offset) ∘ Occurrence.crlf s) =
      fun o : Occurrence => o.offset == offset := by
    funext o
    rw [Function.comp_apply, Bool.eq_iff_iff, beq_iff_eq, beq_iff_eq]
    exact Source.moved_inj
  rw [bindingAt?, bindingAt?]
  show ((r.occurrences.map (Occurrence.crlf s)).find? _).map _ = _
  rw [List.find?_map, same, Option.map_map, Option.map_map]
  rfl

/-- A range of bytes mentions the same bindings. -/
theorem referencesIn_crlf {start stop stop' : Nat} {tail : String}
    (ends : Ends s.toBytes stop stop' tail)
    (apart : ∀ o ∈ r.occurrences, s.toBytes[o.offset]? ≠ some 10) :
    (r.crlf s).referencesIn (s.moved start) stop' = r.referencesIn start stop := by
  have ids : (((r.crlf s).occurrences.filter fun o =>
        s.moved start ≤ o.offset && o.offset < stop').map (·.binding.id)) =
      (r.occurrences.filter fun o => start ≤ o.offset && o.offset < stop).map (·.binding.id) := by
    show ((r.occurrences.map (Occurrence.crlf s)).filter _).map _ = _
    rw [List.filter_map, List.map_map]
    refine congrArg (List.map _) (List.filter_congr fun o ho => ?_)
    rw [Function.comp_apply, Bool.eq_iff_iff, Bool.and_eq_true, Bool.and_eq_true, decide_eq_true_eq,
      decide_eq_true_eq, decide_eq_true_eq, decide_eq_true_eq]
    exact and_congr Source.moved_le_iff (ends.crlfOffset_lt_iff (apart o ho))
  rw [referencesIn, referencesIn, ids]

end Resolution

/-- Whether no name in a callback starts at a line feed. -/
def Resolution.InLine (s : Source) (r : Resolution) : Prop :=
  ∀ o ∈ r.occurrences, s.toBytes[o.offset]? ≠ some 10

theorem inLine_ofBody {parameters : List (String × Option String)} {block : Node}
    (scans : ∀ m ∈ block.preorder, m.Scans text.toList) :
    (Resolution.ofBody (.ofString text) parameters block).InLine (.ofString text) := by
  intro o ho
  rcases Resolution.mem_of_mem_occurrences ho with start | mention
  · cases start
  · obtain ⟨m, hm, is, _, start⟩ := namesIn_of_mem_scopeEvents mention
    obtain ⟨k, genuine, scanned⟩ := (scans m hm).identifier is
    rw [← start, Source.toBytes_ofString, Text.encode_eq]
    exact scanned.not_lineFeed fun stray => genuine (by cases stray; rfl)

/-- The parameters of a callback have the same names and types but for the carriage returns. -/
theorem lambdaParameters_crlf (h : n.Belongs text.toList) :
    lambdaParameters s.crlf (n.crlf s) = (lambdaParameters s n).map crlfParameter := by
  have steady := steady_child (s := s) h .parameters
  rw [lambdaParameters, lambdaParameters, Node.child?_crlf]
  cases found : n.child? .parameters with
  | none => rfl
  | some ps =>
    rw [found] at steady
    have belongs := h.child (Node.mem_children_of_child? found)
    have inside {p : Node} (hp : p ∈ ps.namedChildren) : p.Belongs text.toList :=
      belongs.child (Node.mem_children_of_mem_namedChildren hp)
    simp only [Option.map_some, Node.is_crlf, Node.namedChildren_crlf]
    split
    · rw [steady ps rfl]
      rfl
    · split
      · rw [Node.filter_map_crlf fun m => Node.is_crlf m _, List.map_map, List.map_map]
        refine List.map_congr_left fun p hp => ?_
        obtain ⟨hp, is⟩ := List.mem_filter.1 hp
        rw [Function.comp_apply, steady_of_is belongs hp is rfl p rfl]
        rfl
      · rw [List.filterMap_map, List.map_filterMap]
        refine List.filterMap_congr fun p hp => ?_
        rw [Function.comp_apply, Node.is_crlf, Node.is_crlf, (inside hp).text_child,
          (inside hp).text_child]
        split
        · cases p.child? .name <;> rfl
        · split <;> rfl

/-! ### Names without repetition -/

theorem eraseDups_map_crlfText (names : List String) :
    (names.map crlfText).eraseDups = names.eraseDups.map crlfText := by
  generalize length : names.length = k
  induction k using Nat.strongRecOn generalizing names with
  | ind k ih =>
    cases names with
    | nil => rfl
    | cons name names =>
      have same : ((fun other => !other == crlfText name) ∘ crlfText) =
          fun other => !other == name := by
        funext other
        rw [Function.comp_apply, Bool.eq_iff_iff, Bool.not_eq_true', Bool.not_eq_true',
          beq_eq_false_iff_ne, beq_eq_false_iff_ne, not_iff_not]
        exact crlfText_inj
      have fewer : (names.filter fun other => !other == name).length < k := by
        rw [← length, List.length_cons]
        exact Nat.lt_succ_of_le (List.length_filter_le ..)
      rw [List.map_cons, List.eraseDups_cons, List.eraseDups_cons, List.map_cons, List.filter_map,
        same, ih _ fewer _ rfl]

/-- The order of names may change with the carriage returns, the names do not. -/
theorem sortedNames_crlf (names : List String) :
    (sortedNames (names.map crlfText)).Perm ((sortedNames names).map crlfText) := by
  rw [sortedNames, eraseDups_map_crlfText]
  exact (List.mergeSort_perm ..).trans ((List.mergeSort_perm ..).symm.map crlfText)

end MonoTap.Callback

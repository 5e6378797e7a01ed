import MonoTap.Proofs.Shapes

/-!
# Repairs

A repair shows in the tree. Whatever tokens a derivation takes are in the nodes that it gives, so a token
that was put in leaves a missing node and one that was skipped an error. A text without faults is
therefore read as it stands.
-/

set_option autoImplicit false

namespace MonoTap.Java

/-- Whether there is a fault among some nodes or inside them. -/
def hasFault (ns : List Node) : Bool :=
  ns.any Node.hasError

/-- Whether a token was put in, or comes after one that was skipped. -/
def Token.isRepaired (t : Token) : Bool :=
  t.kind == .missing || hasFault t.extras

/-- Whether some tokens were put in or skipped. -/
def TokenList.isRepaired (l : TokenList) : Bool :=
  l.tokens.any Token.isRepaired || hasFault l.trailing

theorem hasFault_append (ns ms : List Node) : hasFault (ns ++ ms) = (hasFault ns || hasFault ms) :=
  List.any_append

theorem hasFault_assign (part : Role) (ns : List Node) :
    hasFault (Node.assign part ns) = hasFault ns := by
  rw [hasFault, Node.assign, List.any_map, hasFault]
  refine congrArg (List.any ns) (funext fun n => ?_)
  rw [Function.comp_apply]
  split
  · rfl
  · exact n.hasError_withRole part

theorem hasFault_wrap (k : Kind) {ns : List Node} (h : hasFault ns = true) :
    hasFault (Node.wrap k ns) = true := by
  rcases Node.wrap_cases k ns with ⟨_, same⟩ | ⟨outside, first, others, last, split, _, _, _, same⟩
  · rw [same]
    exact h
  · rw [split, hasFault_append, Bool.or_eq_true] at h
    rw [same, hasFault_append, Bool.or_eq_true]
    refine h.imp_right fun inside => ?_
    obtain ⟨n, hn, fault⟩ := List.any_eq_true.1 inside
    rw [hasFault, List.any_cons, List.any_nil, Bool.or_false]
    exact Node.hasError_iff.2 (.inr ⟨n, hn, fault⟩)

/-- A repaired token leaves a fault. -/
theorem hasFault_toNodes {t : Token} (h : t.isRepaired = true) (label : Label) :
    hasFault (t.toNodes label) = true := by
  rw [Token.toNodes, hasFault_append, Bool.or_eq_true]
  rcases Bool.or_eq_true_iff.1 h with missing | skipped
  · right
    rw [if_pos missing, hasFault, List.any_cons]
    exact Bool.or_eq_true_iff.2 (.inl (Node.hasError_iff.2 (.inl rfl)))
  · exact .inl skipped

namespace Rule

variable {S : Type} {grammar : S → Rule S} {rule : Rule S} {op nodes : List Node} {ts : List Token}

/-- What a derivation shows of the repairs among its tokens, and of the faults in the left part of the
chain around it. -/
structure Shows (use : LeftUse) (op : List Node) (ts : List Token) (nodes : List Node) : Prop where
  tokens : use ≠ .astray → ts.any Token.isRepaired = true → hasFault nodes = true
  operand : use = .first → hasFault op = true → hasFault nodes = true

theorem Shows.astray : Shows .astray op ts nodes :=
  ⟨fun use => (use rfl).elim, fun use => by cases use⟩

theorem shows_toNodes {t : Token} {label : Label} : Shows .never op [t] (t.toNodes label) := by
  refine ⟨fun _ repaired => hasFault_toNodes ?_ label, fun use => by cases use⟩
  rwa [List.any_cons, List.any_nil, Bool.or_false] at repaired

/-- Tokens that are read as the rest of a longer one are not repaired. -/
theorem not_isRepaired_of_adjacent {start stop : Nat} {texts : List String}
    (h : Adjacent start texts ts stop) (fresh : ∀ text ∈ texts, text ∉ insertable)
    (proper : ∀ t ∈ ts, t.Proper) : ts.any Token.isRepaired = false := by
  induction h with
  | nil => rfl
  | @cons start stop text texts t ts joined bare reads more ih =>
    have kind : t.kind ≠ .missing := fun missing => fresh text List.mem_cons_self
      (Token.text_of_reads reads ▸ (proper t List.mem_cons_self).inserted missing)
    rw [List.any_cons, ih (fun text mem => fresh text (List.mem_cons_of_mem _ mem)) fun t ht =>
      proper t (List.mem_cons_of_mem _ ht), Token.isRepaired, bare, beq_eq_false_iff_ne.2 kind]
    rfl

/-- A derivation shows the repairs among its tokens. -/
theorem Derives.shows (closed : ∀ s, (grammar s).leftUse = .never)
    (genuine : ∀ s, (grammar s).gluesGenuine = true) (h : Derives grammar rule op ts nodes)
    (glues : rule.gluesGenuine = true) (proper : ∀ t ∈ ts, t.Proper) :
    Shows rule.leftUse op ts nodes := by
  induction h with
  | empty => exact ⟨fun _ none => (by cases none), fun use => by cases use⟩
  | left => exact ⟨fun _ none => (by cases none), fun _ fault => fault⟩
  | token | leaf | name | literal => exact shows_toNodes
  | @glued op text next texts t ts stop reads more =>
    refine ⟨fun _ repaired => ?_, fun use => by cases use⟩
    have fresh : ∀ x ∈ text :: next :: texts, x ∉ insertable := by
      simpa [gluesGenuine] using glues
    have kind : t.kind ≠ .missing := fun missing => fresh text List.mem_cons_self
      (Token.text_of_reads reads ▸ (proper t List.mem_cons_self).inserted missing)
    rw [List.any_cons, not_isRepaired_of_adjacent more (fun x mem =>
      fresh x (List.mem_cons_of_mem _ mem)) fun t ht => proper t (List.mem_cons_of_mem _ ht),
      Bool.or_false, Token.isRepaired, beq_eq_false_iff_ne.2 kind, Bool.false_or] at repaired
    rw [hasFault_append, repaired, Bool.true_or]
  | @ref op nodes s ts inner ih =>
    refine ⟨fun _ => (ih (genuine s) proper).tokens ?_, fun use => by cases use⟩
    rw [closed s]
    decide
  | @seq a b op first second ts us left right ihLeft ihRight =>
    rw [gluesGenuine, Bool.and_eq_true] at glues
    have showsLeft := ihLeft glues.1 fun t ht => proper t (List.mem_append_left _ ht)
    have showsRight := ihRight glues.2 fun t ht => proper t (List.mem_append_right _ ht)
    rw [leftUse]
    cases hb : b.leftUse with
    | first => exact .astray
    | astray => exact .astray
    | never =>
      rw [hb] at showsRight
      refine ⟨fun use repaired => ?_, fun use fault => ?_⟩
      · rw [List.any_append, Bool.or_eq_true] at repaired
        rw [hasFault_append, Bool.or_eq_true]
        exact repaired.imp (showsLeft.tokens use) (showsRight.tokens (by decide))
      · rw [hasFault_append, showsLeft.operand use fault, Bool.true_or]
  | @altLeft a b op nodes ts left ih =>
    rw [gluesGenuine, Bool.and_eq_true] at glues
    rw [leftUse]
    split
    · exact ih glues.1 proper
    · exact .astray
  | @altRight a b op nodes ts right ih =>
    rw [gluesGenuine, Bool.and_eq_true] at glues
    rw [leftUse]
    split
    · rename_i same
      rw [same]
      exact ih glues.2 proper
    · exact .astray
  | @manyNil r op =>
    rw [leftUse]
    split
    · exact ⟨fun _ none => (by cases none), fun use => by cases use⟩
    · exact .astray
  | @manyCons r op first others ts us head tail ihHead ihTail =>
    have showsHead := ihHead glues fun t ht => proper t (List.mem_append_left _ ht)
    have showsTail := ihTail glues fun t ht => proper t (List.mem_append_right _ ht)
    rw [leftUse] at showsTail ⊢
    split
    · rename_i never
      rw [if_pos never] at showsTail
      rw [never] at showsHead
      refine ⟨fun use repaired => ?_, fun use => by cases use⟩
      rw [List.any_append, Bool.or_eq_true] at repaired
      rw [hasFault_append, Bool.or_eq_true]
      exact repaired.imp (showsHead.tokens use) (showsTail.tokens use)
    · exact .astray
  | «unless» => exact ⟨fun _ none => (by cases none), fun use => by cases use⟩
  | node inner ih =>
    have shows := ih glues proper
    exact ⟨fun use repaired => hasFault_wrap _ (shows.tokens use repaired),
      fun use fault => hasFault_wrap _ (shows.operand use fault)⟩
  | field inner ih =>
    have shows := ih glues proper
    exact ⟨fun use repaired => (hasFault_assign ..).trans (shows.tokens use repaired),
      fun use fault => (hasFault_assign ..).trans (shows.operand use fault)⟩
  | @chainBase base suffix op nodes ts inner ih =>
    rw [gluesGenuine, Bool.and_eq_true] at glues
    rw [leftUse]
    split
    · exact ih glues.1 proper
    · exact .astray
  | @chainMore base suffix op nodes longer result ts us vs inner step more ihInner ihStep ihMore =>
    rw [gluesGenuine, Bool.and_eq_true] at glues
    have showsBase := ihInner glues.1 fun t ht => proper t (List.mem_append_left _ ht)
    have showsStep := ihStep glues.2 fun t ht =>
      proper t (List.mem_append_right _ (List.mem_append_left _ ht))
    have showsMore := ihMore (by rw [gluesGenuine, glues.2]; rfl) fun t ht =>
      proper t (List.mem_append_right _ (List.mem_append_right _ ht))
    rw [leftUse] at showsMore ⊢
    cases hsuffix : suffix.leftUse with
    | never => exact .astray
    | astray => exact .astray
    | first =>
      rw [hsuffix] at showsMore showsStep
      -- a fault in the base is carried through the suffix and the rest of the chain
      have onwards (fault : hasFault nodes = true) : hasFault result = true :=
        showsMore.operand rfl (showsStep.operand rfl fault)
      refine ⟨fun use repaired => ?_, fun use fault => onwards (showsBase.operand use fault)⟩
      rw [List.any_append, List.any_append, Bool.or_eq_true, Bool.or_eq_true] at repaired
      rcases repaired with repaired | repaired | repaired
      · exact onwards (showsBase.tokens use repaired)
      · exact showsMore.operand rfl (showsStep.tokens (by decide) repaired)
      · exact showsMore.tokens (fun astray => by cases astray) repaired

end Rule

/-! ### Repaired texts -/

theorem isRepaired_of_repair {l repaired : TokenList} {position : Nat}
    (h : repair? position l = some repaired) : repaired.isRepaired = true := by
  rw [TokenList.isRepaired, Bool.or_eq_true]
  have error {t : Token} {ns : List Node} :
      hasFault (t.extras ++ [.mk (.kind .error) none t.start t.stop []] ++ ns) = true := by
    rw [hasFault_append, hasFault_append, hasFault, hasFault, List.any_cons,
      Node.hasError_iff.2 (.inl rfl), Bool.true_or, Bool.or_true, Bool.true_or]
  rcases List.mem_append.1 (List.mem_of_find?_eq_some h) with inserted | skipped
  · obtain ⟨text, _, rfl⟩ := List.mem_map.1 inserted
    left
    rw [insertToken, List.any_append, List.any_append]
    exact Bool.or_eq_true_iff.2 (.inl (Bool.or_eq_true_iff.2 (.inr rfl)))
  · have skip := Option.mem_toList.1 skipped
    unfold skipToken at skip
    split at skip
    · cases skip
    · dsimp only at skip
      split at skip
      · cases skip
        exact .inr error
      · cases skip
        left
        rw [List.any_append, List.any_cons, Token.isRepaired, error, Bool.or_true, Bool.true_or,
          Bool.or_true]

theorem hasError_rootOver {k : Kind} {nodes : List Node} (h : hasFault nodes = true) :
    (rootOver k nodes).hasError = true := by
  obtain ⟨n, hn, fault⟩ := List.any_eq_true.1 h
  exact Node.hasError_iff.2 (.inr ⟨n, hn, fault⟩)

/-- The tree over repaired tokens has a fault. -/
theorem hasError_of_complete {text : List Char} {l : TokenList} {nodes : List Node}
    (stands : l.Stands text) (repaired : l.isRepaired = true)
    (complete : (readProgram l.tokens).complete? = some nodes) :
    (rootOver .program (nodes ++ l.trailing)).hasError = true := by
  obtain ⟨⟨mid, placed, _⟩, _⟩ := stands
  have shows := (derives_of_complete complete).shows isRegularGrammar_ruleOf.closed gluesGenuine_ruleOf
    rfl placed.proper
  refine hasError_rootOver ?_
  rw [hasFault_append, Bool.or_eq_true]
  exact (Bool.or_eq_true_iff.1 repaired).imp_left (shows.tokens (by decide))

/-- The tree of a text that was repaired has a fault. -/
theorem hasError_of_isRepaired {text : List Char} (repairs : Nat) {l : TokenList}
    (stands : l.Stands text) (repaired : l.isRepaired = true) : (treeOf repairs l).hasError = true := by
  induction repairs generalizing l with
  | zero =>
    rcases treeOf_cases 0 l with ⟨nodes, complete, same⟩ | ⟨_, _, _, none, _⟩ | same
    · exact same ▸ hasError_of_complete stands repaired complete
    · cases none
    · rw [same, hasError_broken]
  | succ repairs ih =>
    rcases treeOf_cases (repairs + 1) l with
      ⟨nodes, complete, same⟩ | ⟨fewer, further, position, one, repair, same⟩ | same
    · exact same ▸ hasError_of_complete stands repaired complete
    · cases one
      rw [same]
      exact ih (stands_repair stands repair) (isRepaired_of_repair repair)
    · rw [same, hasError_broken]

/-- A text without faults is read as it stands. -/
theorem exists_complete {text : List Char} (clean : (parse text).hasError = false) :
    ∃ nodes, (readProgram (TokenList.ofChars text).tokens).complete? = some nodes ∧
      parse text = rootOver .program (nodes ++ (TokenList.ofChars text).trailing) := by
  rcases treeOf_cases (TokenList.ofChars text).tokens.length (.ofChars text) with
    ⟨nodes, complete, same⟩ | ⟨fewer, repaired, position, _, repair, same⟩ | same
  · exact ⟨nodes, complete, same⟩
  · have fault := hasError_of_isRepaired fewer (stands_repair (stands_ofChars text) repair)
      (isRepaired_of_repair repair)
    rw [← same] at fault
    cases clean.symm.trans fault
  · have fault := hasError_broken (.ofChars text) (readProgram (TokenList.ofChars text).tokens)
    rw [← same] at fault
    cases clean.symm.trans fault

/-- What is read as it stands is the tree of the text. -/
theorem parse_of_complete {text : List Char} {nodes : List Node}
    (complete : (readProgram (TokenList.ofChars text).tokens).complete? = some nodes) :
    parse text = rootOver .program (nodes ++ (TokenList.ofChars text).trailing) := by
  have opened := treeOf.eq_def (TokenList.ofChars text).tokens.length (.ofChars text)
  dsimp only at opened
  rw [complete] at opened
  exact opened

end MonoTap.Java

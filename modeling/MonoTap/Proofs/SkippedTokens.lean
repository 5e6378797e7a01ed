import MonoTap.Proofs.DeclaredImports

/-!
# Skipped tokens

A token that no rule takes stops the reading where it stands. If the tokens before it are declarations and
those after it a compilation unit, it is skipped, and becomes an error among the comments before the next
token. The reading of the other tokens is the same, but for such comments and errors.
-/

set_option autoImplicit false

namespace MonoTap.Java

open Grammar (ruleOf topLevel program)
open Rule (Derives Reads read)

/-! ### How far reading comes -/

namespace Rule

variable {S : Type} {grammar : S → Rule S} {rule r : Rule S} {op nodes : List Node} {s : Token}
  {ts rest front back : List Token} {fuel : Nat} {i next : Input}

theorem position_le_reach (grammar : S → Rule S) (fuel : Nat) (rule : Rule S) (op : List Node) (i : Input) :
    i.position ≤ (read grammar fuel rule op i).reach := by
  induction fuel generalizing rule op i with
  | zero => exact Nat.le_refl _
  | succ fuel ih =>
    -- each rule begins with a part of it, and comes no less far
    have first {part : Rule S} {reach : Nat} {result : Option (List Node × Input)}
        (found : read grammar fuel part op i = ⟨reach, result⟩) : i.position ≤ reach := by
      have whole := ih part op i
      rwa [found] at whole
    cases rule with
    | empty | left | token | leaf | name | literal => exact Nat.le_refl _
    | ref s => exact ih (grammar s) op i
    | seq a b =>
      simp only [read]
      rcases found : read grammar fuel a op i with ⟨reach, _ | ⟨nodes, next⟩⟩
      · exact first found
      · have := first found
        dsimp only
        rcases read grammar fuel b op next with ⟨reach', _ | _⟩ <;> dsimp only <;> omega
    | alt a b =>
      simp only [read]
      rcases found : read grammar fuel a op i with ⟨reach, _ | _⟩
      · have := first found
        dsimp only
        omega
      · exact first found
    | many r =>
      simp only [read]
      rcases found : read grammar fuel r op i with ⟨reach, _ | ⟨nodes, next⟩⟩
      · exact first found
      · have := first found
        dsimp only
        split
        · exact this
        · rcases read grammar fuel (.many r) op next with ⟨reach', _ | _⟩ <;> dsimp only <;> omega
    | «unless» r =>
      simp only [read]
      rcases read grammar fuel r op i with ⟨reach, _ | _⟩ <;> exact Nat.le_refl _
    | node k r | field k r => exact ih r op i
    | chain base suffix =>
      simp only [read]
      rcases found : read grammar fuel base op i with ⟨reach, _ | ⟨nodes, next⟩⟩
      · exact first found
      · have := first found
        dsimp only
        rcases read grammar fuel suffix nodes next with ⟨reach', _ | ⟨longer, after⟩⟩
        · dsimp only
          omega
        · dsimp only
          split <;> dsimp only <;> omega

/-- A repetition has looked at the token where it stops. -/
theorem le_reach_of_many (h : (read grammar fuel (.many r) op i).result = some (nodes, next)) :
    next.position ≤ (read grammar fuel (.many r) op i).reach := by
  induction fuel generalizing nodes i with
  | zero => cases h
  | succ fuel ih =>
    simp only [read] at h ⊢
    have first := position_le_reach grammar fuel r op i
    rcases found : read grammar fuel r op i with ⟨reach, _ | ⟨own, after⟩⟩
    · rw [found] at h first
      cases h
      exact first
    · rw [found] at h first
      dsimp only at h first ⊢
      split at h
      · cases h
        rw [if_pos (by assumption)]
        exact first
      · rw [if_neg (by assumption)]
        have start := position_le_reach grammar fuel (.many r) op after
        rcases others : read grammar fuel (.many r) op after with ⟨reach', _ | ⟨further, last⟩⟩
        · rw [others] at h start
          cases h
          exact Nat.le_trans start (Nat.le_max_right _ _)
        · have inner := @ih further after
          rw [others] at h inner
          cases h
          exact Nat.le_trans (inner rfl) (Nat.le_max_right _ _)

/-- A stray token is still ahead after a reading. -/
theorem exists_before_stray (stray : s.kind = .stray)
    (h : (read grammar fuel rule op i).result = some (nodes, next)) (ahead : i.rest = front ++ s :: back) :
    ∃ front', next.rest = front' ++ s :: back ∧ next.position + front'.length = i.position + front.length := by
  obtain ⟨ts, split, derives⟩ := derives_of_read h
  have all := total_of_read h
  rw [total, total, split, List.length_append] at all
  rw [ahead] at split
  rcases List.append_eq_append_iff.1 split with ⟨taken, rfl, rest⟩ | ⟨front', rfl, rest⟩
  · cases taken with
    | nil =>
      rw [List.append_nil] at all
      exact ⟨[], rest.symm, by rw [List.length_nil]; omega⟩
    | cons t taken =>
      obtain ⟨rfl, _⟩ := List.cons.inj rest
      exact (derives.not_stray s (List.mem_append_right _ List.mem_cons_self) stray).elim
  · exact ⟨front', rest, by rw [List.length_append]; omega⟩

/-- No attempt comes beyond a stray token. -/
theorem reach_le_of_stray (stray : s.kind = .stray) (ahead : i.rest = front ++ s :: back) :
    (read grammar fuel rule op i).reach ≤ i.position + front.length := by
  induction fuel generalizing rule op i front with
  | zero => exact Nat.le_add_right _ _
  | succ fuel ih =>
    have reach_le {part : Rule S} {op : List Node} {reach : Nat} {result : Option (List Node × Input)}
        (found : read grammar fuel part op i = ⟨reach, result⟩) : reach ≤ i.position + front.length := by
      have whole : (read grammar fuel part op i).reach ≤ i.position + front.length := ih ahead
      rwa [found] at whole
    -- what comes after a part that has been read
    have further {part : Rule S} {op nodes : List Node} {i next : Input} {front : List Token} {reach : Nat}
        (found : read grammar fuel part op i = ⟨reach, some (nodes, next)⟩)
        (ahead : i.rest = front ++ s :: back) (rule : Rule S) (op' : List Node) :
        (read grammar fuel rule op' next).reach ≤ i.position + front.length := by
      obtain ⟨front', ahead', same⟩ := exists_before_stray stray (congrArg Outcome.result found) ahead
      exact same ▸ ih ahead'
    cases rule with
    | empty | left | token | leaf | name | literal => exact Nat.le_add_right _ _
    | ref s => exact ih ahead
    | seq a b =>
      simp only [read]
      rcases found : read grammar fuel a op i with ⟨reach, _ | ⟨nodes, next⟩⟩
      · exact reach_le found
      · have := reach_le found
        have more := further found ahead b op
        dsimp only
        rcases second : read grammar fuel b op next with ⟨reach', _ | _⟩ <;>
          (rw [second] at more; dsimp only at more ⊢; omega)
    | alt a b =>
      simp only [read]
      rcases found : read grammar fuel a op i with ⟨reach, _ | _⟩
      · have := reach_le found
        have : (read grammar fuel b op i).reach ≤ i.position + front.length := ih ahead
        dsimp only
        omega
      · exact reach_le found
    | many r =>
      simp only [read]
      rcases found : read grammar fuel r op i with ⟨reach, _ | ⟨nodes, next⟩⟩
      · exact reach_le found
      · have := reach_le found
        have more := further found ahead (.many r) op
        dsimp only
        split
        · exact this
        · rcases others : read grammar fuel (.many r) op next with ⟨reach', _ | _⟩ <;>
            (rw [others] at more; dsimp only at more ⊢; omega)
    | «unless» r =>
      simp only [read]
      rcases read grammar fuel r op i with ⟨reach, _ | _⟩ <;> exact Nat.le_add_right _ _
    | node k r | field k r => exact ih ahead
    | chain base suffix =>
      simp only [read]
      rcases found : read grammar fuel base op i with ⟨reach, _ | ⟨nodes, next⟩⟩
      · exact reach_le found
      · have := reach_le found
        have more := further found ahead suffix nodes
        obtain ⟨front', ahead', same⟩ := exists_before_stray stray (congrArg Outcome.result found) ahead
        dsimp only
        rcases step : read grammar fuel suffix nodes next with ⟨reach', _ | ⟨longer, after⟩⟩
        · rw [step] at more
          dsimp only at more ⊢
          omega
        · have last := further step ahead' (.chain .left suffix) longer
          rw [step] at more
          dsimp only at more ⊢
          split <;> dsimp only <;> omega

end Rule

/-! ### Tokens with other comments before them -/

/-- What shows of a node: its label and those of the nodes inside it, comments and errors apart. -/
def Node.outline (n : Node) : Label × List Label :=
  (n.label, (n.children.filter (!·.isExtra)).map Node.label)

/-- What shows of some nodes, comments and errors apart. -/
def outlines (ns : List Node) : List (Label × List Label) :=
  (ns.filter (!·.isExtra)).map Node.outline

variable {ns ms ns' ms' es : List Node} {ts ts' : List Token} {t : Token} {out out' : Reading}

theorem outlines_append (ns ms : List Node) : outlines (ns ++ ms) = outlines ns ++ outlines ms := by
  rw [outlines, List.filter_append, List.map_append]
  rfl

theorem outlines_of_extras (extras : ∀ n ∈ ns, n.isExtra = true) : outlines ns = [] := by
  rw [outlines, List.filter_eq_nil_iff.2, List.map_nil]
  intro n hn
  rw [extras n hn]
  exact Bool.false_ne_true

theorem outlines_singleton {n : Node} (counts : n.isExtra = false) : outlines [n] = [n.outline] := by
  rw [outlines, List.filter_cons_of_pos (by rw [counts]; rfl)]
  rfl

/-- The labels that show are the first parts of what shows. -/
theorem map_fst_outlines (ns : List Node) :
    (outlines ns).map Prod.fst = (ns.filter (!·.isExtra)).map Node.label := by
  rw [outlines, List.map_map]
  rfl

/-- A node is made of some nodes just if one of them shows. -/
theorem outlines_wrap (k : Kind) (ns : List Node) : outlines (Node.wrap k ns) =
    if outlines ns = [] ∨ k.isExtra = true then [] else [(.kind k, (outlines ns).map Prod.fst)] := by
  rcases Node.wrap_cases k ns with ⟨extras, same⟩ | ⟨outside, first, others, last, split, extras, counts, _, same⟩
  · have none := outlines_of_extras extras
    rw [same, none, if_pos (.inl rfl)]
  · have shows : outlines ns = outlines (first :: others) := by
      rw [split, outlines_append, outlines_of_extras extras, List.nil_append]
    have some : outlines ns ≠ [] := by
      rw [shows, outlines, List.filter_cons_of_pos (by rw [counts]; rfl)]
      exact List.cons_ne_nil _ _
    rw [same, outlines_append, outlines_of_extras extras, List.nil_append]
    cases extra : k.isExtra with
    | true =>
      rw [if_pos (.inr rfl)]
      refine outlines_of_extras (List.forall_mem_singleton.2 ?_)
      rw [Node.isExtra_kind, extra]
    | false =>
      rw [if_neg (by simp [some]), outlines_singleton ((Node.isExtra_kind ..).trans extra), shows, map_fst_outlines]
      rfl

theorem outlines_assign (part : Role) (ns : List Node) : outlines (Node.assign part ns) = outlines ns := by
  induction ns with
  | nil => rfl
  | cons n ns ih =>
    have own : outlines (Node.assign part [n]) = outlines [n] := by
      rw [Node.assign, List.map_singleton]
      cases extra : n.isExtra with
      | true => rfl
      | false =>
        rw [if_neg Bool.false_ne_true, outlines_singleton extra,
          outlines_singleton ((n.isExtra_withRole part).trans extra)]
        cases n
        rfl
    rw [← List.singleton_append, Node.assign, List.map_append, outlines_append, outlines_append]
    exact congr (congrArg _ own) ih

/-- The same tokens, where other comments and errors may stand before the first of them. -/
inductive AlikeTokens : List Token → List Token → Prop
  | same (ts : List Token) : AlikeTokens ts ts
  | head {t : Token} {es : List Node} (extras : ∀ m ∈ t.extras, m.isExtra = true)
      (extras' : ∀ m ∈ es, m.isExtra = true) (ts : List Token) :
      AlikeTokens (t :: ts) ({ t with extras := es } :: ts)

/-- Readings in which the same shows. -/
inductive AlikeReadings : Reading → Reading → Prop
  | none : AlikeReadings none none
  | some {nodes nodes' : List Node} {rest rest' : List Token} (same : outlines nodes = outlines nodes')
      (alike : AlikeTokens rest rest') : AlikeReadings (some (nodes, rest)) (some (nodes', rest'))

theorem AlikeTokens.length_eq (h : AlikeTokens ts ts') : ts.length = ts'.length := by
  cases h <;> rfl

theorem alikeReadings_refl (out : Reading) : AlikeReadings out out := by
  obtain _ | ⟨nodes, rest⟩ := out
  · exact .none
  · exact .some rfl (.same rest)

theorem outlines_toNodes (extras : ∀ m ∈ t.extras, m.isExtra = true) (extras' : ∀ m ∈ es, m.isExtra = true)
    (label : Label) :
    outlines (t.toNodes label) = outlines (Token.toNodes { t with extras := es } label) := by
  rw [Token.toNodes, Token.toNodes, outlines_append, outlines_append, outlines_of_extras extras,
    outlines_of_extras extras']

theorem AlikeReadings.after (h : AlikeReadings out out') (same : outlines ns = outlines ns') :
    AlikeReadings (out.after ns) (out'.after ns') := by
  cases h with
  | none => exact .none
  | some more alike => exact .some (by rw [outlines_append, outlines_append, same, more]) alike

namespace Rule

theorem takeLeaf_alikeTokens (h : AlikeTokens ts ts') {test : Token → Option Label}
    (blind : ∀ (t : Token) (es : List Node), test { t with extras := es } = test t) :
    AlikeReadings (takeLeaf test ts) (takeLeaf test ts') := by
  cases h with
  | same ts => exact alikeReadings_refl _
  | @head t es extras extras' ts =>
    rw [takeLeaf_cons, takeLeaf_cons, blind t es]
    obtain _ | label := test t
    · exact .none
    · exact .some (outlines_toNodes extras extras' label) (.same ts)

theorem takeToken_alikeTokens (h : AlikeTokens ts ts') (texts : List String) :
    AlikeReadings (takeToken texts ts) (takeToken texts ts') := by
  cases h with
  | same ts => exact alikeReadings_refl _
  | @head t es extras extras' ts =>
    cases texts with
    | nil => exact .none
    | cons text more =>
      have blind : (Token.reads { t with extras := es } text) = t.reads text := rfl
      cases reads : t.reads text with
      | false =>
        rw [takeToken_of_not_reads more reads, takeToken_of_not_reads more (blind.trans reads)]
        exact .none
      | true =>
        cases more with
        | nil =>
          rw [takeToken_cons, takeToken_cons, blind, reads, if_pos rfl, if_pos rfl]
          exact .some (outlines_toNodes extras extras' _) (.same ts)
        | cons next more =>
          rw [takeToken_glue more reads, takeToken_glue more (blind.trans reads)]
          cases glue t.stop (next :: more) ts with
          | none => exact .none
          | some r =>
            refine .some ?_ (.same r.2)
            rw [outlines_append, outlines_append, outlines_of_extras extras, outlines_of_extras extras']

variable {S : Type} {grammar : S → Rule S} {rule : Rule S} {op op' : List Node}

/-- Rules read the same from such tokens. -/
theorem Reads.exists_alike (h : Reads grammar rule op ts out) (same : outlines op = outlines op')
    (alike : AlikeTokens ts ts') : ∃ out', Reads grammar rule op' ts' out' ∧ AlikeReadings out out' := by
  induction h generalizing op' ts' with
  | empty => exact ⟨_, .empty, .some rfl alike⟩
  | left => exact ⟨_, .left, .some same alike⟩
  | token texts => exact ⟨_, .token texts, takeToken_alikeTokens alike texts⟩
  | leaf text k => exact ⟨_, .leaf text k, takeLeaf_alikeTokens alike fun _ _ => rfl⟩
  | name k => exact ⟨_, .name k, takeLeaf_alikeTokens alike fun _ _ => rfl⟩
  | literal => exact ⟨_, .literal, takeLeaf_alikeTokens alike fun _ _ => rfl⟩
  | ref inner ih =>
    obtain ⟨out', reads, like⟩ := ih same alike
    exact ⟨out', .ref reads, like⟩
  | seqFail first ih =>
    obtain ⟨_, reads, ⟨⟩⟩ := ih same alike
    exact ⟨_, .seqFail reads, .none⟩
  | seq first second ih ih' =>
    obtain ⟨_, reads, _ | ⟨own, rest⟩⟩ := ih same alike
    obtain ⟨out', reads', like⟩ := ih' same rest
    exact ⟨_, .seq reads reads', like.after own⟩
  | altFirst first ih =>
    obtain ⟨_, reads, _ | ⟨own, rest⟩⟩ := ih same alike
    exact ⟨_, .altFirst reads, .some own rest⟩
  | altSecond first second ih ih' =>
    obtain ⟨_, reads, ⟨⟩⟩ := ih same alike
    obtain ⟨out', reads', like⟩ := ih' same alike
    exact ⟨out', .altSecond reads reads', like⟩
  | manyStop stop ih =>
    obtain ⟨_, reads, ⟨⟩⟩ := ih same alike
    exact ⟨_, .manyStop reads, .some rfl alike⟩
  | manyStuck first stuck ih =>
    obtain ⟨_, reads, _ | ⟨own, rest⟩⟩ := ih same alike
    exact ⟨_, .manyStuck reads (by rwa [← alike.length_eq, ← rest.length_eq]), .some rfl alike⟩
  | manyMore first shorter more ih ih' =>
    obtain ⟨_, reads, _ | ⟨own, rest⟩⟩ := ih same alike
    obtain ⟨out', reads', like⟩ := ih' same rest
    exact ⟨_, .manyMore reads (by rwa [← alike.length_eq, ← rest.length_eq]) reads', like.after own⟩
  | «unless» fails ih =>
    obtain ⟨_, reads, ⟨⟩⟩ := ih same alike
    exact ⟨_, .unless reads, .some rfl alike⟩
  | unlessFail found ih =>
    obtain ⟨_, reads, _ | ⟨own, rest⟩⟩ := ih same alike
    exact ⟨_, .unlessFail reads, .none⟩
  | node k inner ih =>
    obtain ⟨_, reads, like⟩ := ih same alike
    refine ⟨_, .node k reads, ?_⟩
    cases like with
    | none => exact .none
    | some own rest => exact .some (by rw [outlines_wrap, outlines_wrap, own]) rest
  | field part inner ih =>
    obtain ⟨_, reads, like⟩ := ih same alike
    refine ⟨_, .field part reads, ?_⟩
    cases like with
    | none => exact .none
    | some own rest => exact .some (by rw [outlines_assign, outlines_assign, own]) rest
  | chainFail first ih =>
    obtain ⟨_, reads, ⟨⟩⟩ := ih same alike
    exact ⟨_, .chainFail reads, .none⟩
  | chainStop first stop ih ih' =>
    obtain ⟨_, reads, _ | ⟨own, rest⟩⟩ := ih same alike
    obtain ⟨_, stop', ⟨⟩⟩ := ih' own rest
    exact ⟨_, .chainStop reads stop', .some own rest⟩
  | chainStuck first step stuck ih ih' =>
    obtain ⟨_, reads, _ | ⟨own, rest⟩⟩ := ih same alike
    obtain ⟨_, step', _ | ⟨longer, after⟩⟩ := ih' own rest
    exact ⟨_, .chainStuck reads step' (by rwa [← rest.length_eq, ← after.length_eq]), .some own rest⟩
  | chainMore first step shorter more ih ih' ih'' =>
    obtain ⟨_, reads, _ | ⟨own, rest⟩⟩ := ih same alike
    obtain ⟨_, step', _ | ⟨longer, after⟩⟩ := ih' own rest
    obtain ⟨out', reads', like⟩ := ih'' longer after
    exact ⟨out', .chainMore reads step' (by rwa [← rest.length_eq, ← after.length_eq]) reads', like⟩

end Rule

/-! ### The repair -/

variable {s : Token} {back : List Token} {nodes others : List Node} {l : TokenList}

theorem complete?_eq_none_of_stray (stray : s.kind = .stray) (mem : s ∈ ts) :
    (readProgram ts).complete? = none := by
  cases complete : (readProgram ts).complete? with
  | none => rfl
  | some nodes =>
    exact ((derives_of_reads_all (complete?_eq_some_iff.1 complete)).not_stray s mem stray).elim

/-- No construct begins with a stray token. -/
theorem reads_topLevel_of_stray (stray : s.kind = .stray) (back : List Token) :
    Reads ruleOf topLevel [] (s :: back) none := by
  have reads : Reads ruleOf topLevel [] (s :: back) (read ruleOf
      (500 * (s :: back).length + Rule.entry Grammar.room topLevel) topLevel [] ⟨0, s :: back⟩).reading :=
    Rule.reads_of_read (i := ⟨0, s :: back⟩) Grammar.enters_ruleOf (Nat.le_refl _)
  generalize Outcome.reading _ = out at reads
  obtain _ | ⟨nodes, rest⟩ := out
  · exact reads
  · obtain ⟨us, split, derives⟩ := reads.derives Grammar.enters_ruleOf
    cases us with
    | nil => exact (derives.ne_nil Grammar.enters_ruleOf.takes (by decide +kernel) rfl).elim
    | cons u us =>
      obtain ⟨rfl, _⟩ := List.cons.inj split
      exact (derives.not_stray s List.mem_cons_self stray).elim

theorem readProgram_reach_le (stray : s.kind = .stray) (ts back : List Token) :
    (readProgram (ts ++ s :: back)).reach ≤ ts.length := by
  unfold readProgram
  have bound := @Rule.reach_le_of_stray _ ruleOf program [] s ts back (nestingBound (ts ++ s :: back).length)
    ⟨0, ts ++ s :: back⟩ stray rfl
  rwa [Nat.zero_add] at bound

/-- Reading stops at a stray token after constructs. -/
theorem readProgram_reach_of_stray (stray : s.kind = .stray) (run : Run (s :: back) ts nodes) :
    (readProgram (ts ++ s :: back)).reach = ts.length := by
  refine Nat.le_antisymm (readProgram_reach_le stray ts back) ?_
  have stops : Reads ruleOf program [] (s :: back) (some ([], s :: back)) :=
    .manyStop (reads_topLevel_of_stray stray back)
  have whole := (reads_readProgram (ts ++ s :: back)).unique (run.reads stops)
  obtain ⟨⟨found, next⟩, result, same⟩ := Option.map_eq_some_iff.1 whole
  obtain ⟨rfl, rest⟩ := Prod.mk.inj same
  unfold readProgram at result ⊢
  have all := Rule.total_of_read result
  rw [Rule.total, Rule.total] at all
  have rest : next.rest = s :: back := rest
  rw [rest, List.length_append] at all
  have reach := Rule.le_reach_of_many result
  dsimp only at all
  exact Nat.le_trans (by omega) reach

/-- A stray token between constructs and the rest of a compilation unit is skipped. -/
theorem repair?_of_stray {repaired : TokenList} (stray : s.kind = .stray) (tokens : l.tokens = ts ++ s :: back)
    (skip : skipToken ts.length l = some repaired)
    (complete : (readProgram repaired.tokens).complete? = some others) :
    repair? ts.length l = some repaired := by
  have inserted : ∀ text ∈ insertable, recovers ts.length
      { l with tokens := insertToken text ts.length l.tokens } = false := by
    intro text _
    rw [recovers, insertToken, tokens, List.take_left, List.drop_left]
    dsimp only
    generalize Token.mk _ text _ _ [] = missing
    rw [complete?_eq_none_of_stray stray (List.mem_append_right _ List.mem_cons_self)]
    have bound := readProgram_reach_le stray (ts ++ [missing]) back
    rw [List.length_append, List.length_singleton] at bound
    rw [Option.isSome_none, Bool.false_or, decide_eq_false_iff_not, recoverySpan]
    omega
  have recovered : recovers ts.length repaired = true := by
    rw [recovers, complete]
    rfl
  rw [repair?, skip, List.find?_append, List.find?_eq_none.2, Option.none_or, Option.toList_some, List.find?_singleton, recovered]
  · rfl
  · intro l' hl
    obtain ⟨text, mem, rfl⟩ := List.mem_map.1 hl
    rw [inserted text mem]
    exact Bool.false_ne_true

/-- The tree over declarations, a stray token, and the rest of a compilation unit. -/
theorem exists_tree_of_stray (stray : s.kind = .stray) (tokens : l.tokens = ts ++ s :: back)
    (run : ∀ rest, Run rest ts nodes) (reads : Reads ruleOf program [] back (some (others, [])))
    (before : ∀ m ∈ s.extras, m.isExtra = true) (extras : ∀ t ∈ back, ∀ m ∈ t.extras, m.isExtra = true)
    (trailing : ∀ m ∈ l.trailing, m.isExtra = true) : ∃ others' trailing',
      treeOf l.tokens.length l = rootOver .program (nodes ++ others' ++ trailing') ∧
        outlines others' = outlines others ∧ ∀ m ∈ trailing', m.isExtra = true := by
  have skipped : ∀ m ∈ s.extras ++ [.mk (.kind .error) none s.start s.stop []], m.isExtra = true :=
    List.forall_mem_append.2 ⟨before, List.forall_mem_singleton.2 rfl⟩
  obtain ⟨repaired, others', skip, reads', same, trailing'⟩ : ∃ repaired others',
      skipToken ts.length l = some repaired ∧
        Reads ruleOf program [] repaired.tokens (some (nodes ++ others', [])) ∧
        outlines others' = outlines others ∧ ∀ m ∈ repaired.trailing, m.isExtra = true := by
    cases back with
    | nil =>
      refine ⟨⟨ts, _ ++ l.trailing⟩, others, ?_, ?_, rfl, List.forall_mem_append.2 ⟨skipped, trailing⟩⟩
      · rw [skipToken, tokens, List.drop_left]
        dsimp only
        rw [List.take_left]
      · have whole := (run []).reads reads
        rwa [List.append_nil] at whole
    | cons t back =>
      obtain ⟨own, _⟩ := List.forall_mem_cons.1 extras
      obtain ⟨_, alike, _ | ⟨shows, rest⟩⟩ := reads.exists_alike rfl
        (.head own (List.forall_mem_append.2 ⟨skipped, own⟩) back)
      cases rest
      refine ⟨⟨ts ++ _ :: back, l.trailing⟩, _, ?_, (run _).reads alike, shows.symm, trailing⟩
      rw [skipToken, tokens, List.drop_left]
      dsimp only
      rw [List.take_left]
  have complete := complete?_eq_some_iff.2 reads'
  have stuck : (readProgram l.tokens).complete? = none :=
    complete?_eq_none_of_stray stray (tokens ▸ List.mem_append_right _ List.mem_cons_self)
  have reach : (readProgram l.tokens).reach = ts.length := tokens ▸ readProgram_reach_of_stray stray (run _)
  obtain ⟨repairs, count⟩ : ∃ repairs, l.tokens.length = repairs + 1 := by
    refine ⟨ts.length + back.length, ?_⟩
    rw [tokens, List.length_append, List.length_cons]
    omega
  refine ⟨others', repaired.trailing, ?_, same, trailing'⟩
  have repairing := treeOf.eq_def (repairs + 1) l
  have done := treeOf.eq_def repairs repaired
  dsimp only at repairing done
  rw [stuck, reach, repair?_of_stray stray tokens skip complete] at repairing
  rw [complete] at done
  rw [count]
  exact repairing.trans done

end MonoTap.Java

import MonoTap.Proofs.Repairs

/-!
# Readings

What a rule reads, without the bound on nesting: a relation between the rule, the left part of the chain
around it, the tokens, and what is read from them. Unlike a derivation a reading says what does not match,
so that it keeps the order of choices, and there is at most one. A bound that leaves enough room for the
tokens does not show: what is read within it is the reading.
-/

set_option autoImplicit false

namespace MonoTap.Java

/-- What was read: the nodes and the tokens that are left, or nothing where the rule does not match. -/
abbrev Reading := Option (List Node × List Token)

/-- An outcome without the positions. -/
def Outcome.reading (o : Outcome) : Reading :=
  o.result.map fun r => (r.1, r.2.rest)

/-- What was read, with further nodes before it. -/
def Reading.after (nodes : List Node) (r : Reading) : Reading :=
  r.map fun p => (nodes ++ p.1, p.2)

/-- What was read, with other nodes made of those that it gives. -/
def Reading.as (f : List Node → List Node) (r : Reading) : Reading :=
  r.map fun p => (f p.1, p.2)

namespace Rule

variable {S : Type}

/-- The token made of the given texts at the beginning of some tokens. -/
def takeToken (texts : List String) (ts : List Token) : Reading :=
  (attempt ⟨0, ts⟩ (readToken texts ⟨0, ts⟩)).reading

/-- The first of some tokens as a node, if it passes the test. -/
def takeLeaf (test : Token → Option Label) (ts : List Token) : Reading :=
  (attempt ⟨0, ts⟩ (readLeaf test ⟨0, ts⟩)).reading

/-- What a rule reads from some tokens, where `operand` is the left part of the chain around it. -/
inductive Reads (grammar : S → Rule S) : Rule S → (operand : List Node) → List Token → Reading → Prop
  | empty {op : List Node} {ts : List Token} : Reads grammar .empty op ts (some ([], ts))
  | left {op : List Node} {ts : List Token} : Reads grammar .left op ts (some (op, ts))
  | token {op : List Node} {ts : List Token} (texts : List String) :
      Reads grammar (.token texts) op ts (takeToken texts ts)
  | leaf {op : List Node} {ts : List Token} (text : String) (k : Kind) :
      Reads grammar (.leaf text k) op ts
        (takeLeaf (fun t => if t.reads text then some (.kind k) else none) ts)
  | name {op : List Node} {ts : List Token} (k : Kind) :
      Reads grammar (.name k) op ts (takeLeaf (fun t => if t.isName then some (.kind k) else none) ts)
  | literal {op : List Node} {ts : List Token} :
      Reads grammar .literal op ts (takeLeaf literalLabel? ts)
  | ref {op : List Node} {ts : List Token} {out : Reading} {s : S}
      (inner : Reads grammar (grammar s) op ts out) : Reads grammar (.ref s) op ts out
  | seqFail {op : List Node} {ts : List Token} {a b : Rule S} (first : Reads grammar a op ts none) :
      Reads grammar (.seq a b) op ts none
  | seq {op nodes : List Node} {ts rest : List Token} {out : Reading} {a b : Rule S}
      (first : Reads grammar a op ts (some (nodes, rest))) (second : Reads grammar b op rest out) :
      Reads grammar (.seq a b) op ts (out.after nodes)
  | altFirst {op : List Node} {ts : List Token} {r : List Node × List Token} {a b : Rule S}
      (first : Reads grammar a op ts (some r)) : Reads grammar (.alt a b) op ts (some r)
  | altSecond {op : List Node} {ts : List Token} {out : Reading} {a b : Rule S}
      (first : Reads grammar a op ts none) (second : Reads grammar b op ts out) :
      Reads grammar (.alt a b) op ts out
  | manyStop {op : List Node} {ts : List Token} {r : Rule S} (stop : Reads grammar r op ts none) :
      Reads grammar (.many r) op ts (some ([], ts))
  | manyStuck {op nodes : List Node} {ts rest : List Token} {r : Rule S}
      (first : Reads grammar r op ts (some (nodes, rest))) (stuck : ts.length ≤ rest.length) :
      Reads grammar (.many r) op ts (some ([], ts))
  | manyMore {op nodes : List Node} {ts rest : List Token} {out : Reading} {r : Rule S}
      (first : Reads grammar r op ts (some (nodes, rest))) (shorter : rest.length < ts.length)
      (more : Reads grammar (.many r) op rest out) : Reads grammar (.many r) op ts (out.after nodes)
  | unless {op : List Node} {ts : List Token} {r : Rule S} (fails : Reads grammar r op ts none) :
      Reads grammar (.unless r) op ts (some ([], ts))
  | unlessFail {op : List Node} {ts : List Token} {p : List Node × List Token} {r : Rule S}
      (found : Reads grammar r op ts (some p)) : Reads grammar (.unless r) op ts none
  | node {op : List Node} {ts : List Token} {out : Reading} {r : Rule S} (k : Kind)
      (inner : Reads grammar r op ts out) : Reads grammar (.node k r) op ts (out.as (Node.wrap k))
  | field {op : List Node} {ts : List Token} {out : Reading} {r : Rule S} (part : Role)
      (inner : Reads grammar r op ts out) :
      Reads grammar (.field part r) op ts (out.as (Node.assign part))
  | chainFail {op : List Node} {ts : List Token} {base suffix : Rule S}
      (first : Reads grammar base op ts none) : Reads grammar (.chain base suffix) op ts none
  | chainStop {op nodes : List Node} {ts rest : List Token} {base suffix : Rule S}
      (first : Reads grammar base op ts (some (nodes, rest)))
      (stop : Reads grammar suffix nodes rest none) :
      Reads grammar (.chain base suffix) op ts (some (nodes, rest))
  | chainStuck {op nodes longer : List Node} {ts rest after : List Token} {base suffix : Rule S}
      (first : Reads grammar base op ts (some (nodes, rest)))
      (step : Reads grammar suffix nodes rest (some (longer, after)))
      (stuck : rest.length ≤ after.length) :
      Reads grammar (.chain base suffix) op ts (some (nodes, rest))
  | chainMore {op nodes longer : List Node} {ts rest after : List Token} {out : Reading}
      {base suffix : Rule S} (first : Reads grammar base op ts (some (nodes, rest)))
      (step : Reads grammar suffix nodes rest (some (longer, after)))
      (shorter : after.length < rest.length)
      (more : Reads grammar (.chain .left suffix) longer after out) :
      Reads grammar (.chain base suffix) op ts out

variable {grammar : S → Rule S} {rule r a b base suffix : Rule S} {op nodes : List Node}
  {ts rest : List Token} {out out' : Reading}

/-! ### There is at most one reading -/

theorem Reads.unique (h : Reads grammar rule op ts out) (h' : Reads grammar rule op ts out') :
    out = out' := by
  induction h generalizing out' with
  | empty | left | token | leaf | name | literal =>
    cases h'
    rfl
  | ref inner ih =>
    cases h' with
    | ref inner' => exact ih inner'
  | seqFail first ih =>
    cases h' with
    | seqFail => rfl
    | seq first' second' => cases ih first'
  | seq first second ihFirst ihSecond =>
    cases h' with
    | seqFail first' => cases ihFirst first'
    | seq first' second' =>
      cases ihFirst first'
      rw [ihSecond second']
  | altFirst first ih =>
    cases h' with
    | altFirst first' => exact ih first'
    | altSecond first' => cases ih first'
  | altSecond first second ihFirst ihSecond =>
    cases h' with
    | altFirst first' => cases ihFirst first'
    | altSecond first' second' => exact ihSecond second'
  | manyStop stop ih =>
    cases h' with
    | manyStop => rfl
    | manyStuck first' => cases ih first'
    | manyMore first' => cases ih first'
  | manyStuck first stuck ih =>
    cases h' with
    | manyStop stop' => rfl
    | manyStuck first' => rfl
    | manyMore first' shorter =>
      cases ih first'
      omega
  | manyMore first shorter more ihFirst ihMore =>
    cases h' with
    | manyStop stop' => cases ihFirst stop'
    | manyStuck first' stuck =>
      cases ihFirst first'
      omega
    | manyMore first' _ more' =>
      cases ihFirst first'
      rw [ihMore more']
  | «unless» fails ih =>
    cases h' with
    | «unless» => rfl
    | unlessFail found => cases ih found
  | unlessFail first ih =>
    cases h' with
    | «unless» fails => cases ih fails
    | unlessFail => rfl
  | node k inner ih =>
    cases h' with
    | node _ inner' => rw [ih inner']
  | field part inner ih =>
    cases h' with
    | field _ inner' => rw [ih inner']
  | chainFail first ih =>
    cases h' with
    | chainFail => rfl
    | chainStop first' => cases ih first'
    | chainStuck first' => cases ih first'
    | chainMore first' => cases ih first'
  | chainStop first stop ihFirst ihStop =>
    cases h' with
    | chainFail first' => cases ihFirst first'
    | chainStop first' => exact ihFirst first'
    | chainStuck first' => exact ihFirst first'
    | chainMore first' step' =>
      cases ihFirst first'
      cases ihStop step'
  | chainStuck first step stuck ihFirst ihStep =>
    cases h' with
    | chainFail first' => cases ihFirst first'
    | chainStop first' => exact ihFirst first'
    | chainStuck first' => exact ihFirst first'
    | chainMore first' step' shorter =>
      cases ihFirst first'
      cases ihStep step'
      omega
  | chainMore first step shorter more ihFirst ihStep ihMore =>
    cases h' with
    | chainFail first' => cases ihFirst first'
    | chainStop first' stop' =>
      cases ihFirst first'
      cases ihStep stop'
    | chainStuck first' step' stuck =>
      cases ihFirst first'
      cases ihStep step'
      omega
    | chainMore first' step' _ more' =>
      cases ihFirst first'
      cases ihStep step'
      exact ihMore more'

/-- A repetition always matches. -/
theorem not_reads_many_none : ¬ Reads grammar (.many r) op ts none := by
  intro h
  generalize hrule : Rule.many r = rule at h
  generalize hout : (none : Reading) = out at h
  induction h with
  | manyStop | manyStuck => cases hout
  | @manyMore op nodes ts rest out r first shorter more _ ih =>
    cases out with
    | none => exact ih hrule rfl
    | some p => cases hout
  | _ => cases hrule

/-! ### The tokens that a rule takes -/

/-- Whether whatever a rule matches has at least one token. -/
def consumes : Rule S → Bool
  | .token texts => !texts.isEmpty
  | .leaf .. | .name _ | .literal | .ref _ => true
  | .seq a b => consumes a || consumes b
  | .alt a b => consumes a && consumes b
  | .node _ r | .field _ r => consumes r
  | .chain base _ => consumes base
  | _ => false

theorem Derives.ne_nil (takes : ∀ s, (grammar s).consumes = true) (h : Derives grammar rule op ts nodes)
    (consumes : rule.consumes = true) : ts ≠ [] := by
  induction h with
  | empty | left | manyNil | manyCons | «unless» => cases consumes
  | token | glued | leaf | name | literal => exact List.cons_ne_nil _ _
  | @ref op nodes s ts inner ih => exact ih (takes s)
  | seq left right ihLeft ihRight =>
    rw [Rule.consumes, Bool.or_eq_true] at consumes
    intro none
    obtain ⟨noneLeft, noneRight⟩ := List.append_eq_nil_iff.1 none
    rcases consumes with first | second
    · exact ihLeft first noneLeft
    · exact ihRight second noneRight
  | altLeft left ih =>
    rw [Rule.consumes, Bool.and_eq_true] at consumes
    exact ih consumes.1
  | altRight right ih =>
    rw [Rule.consumes, Bool.and_eq_true] at consumes
    exact ih consumes.2
  | node inner ih => exact ih consumes
  | field inner ih => exact ih consumes
  | chainBase inner ih => exact ih consumes
  | chainMore inner step more ih _ _ =>
    intro none
    exact ih consumes (List.append_eq_nil_iff.1 none).1

/-! ### Positions -/

/-- The number of all tokens, those before and those that are left. -/
def total (i : Input) : Nat :=
  i.position + i.rest.length

theorem length_of_glue {start stop : Nat} {texts : List String}
    (h : glue start texts ts = some (stop, rest)) : ts.length = rest.length + texts.length := by
  induction texts generalizing start ts with
  | nil =>
    cases h
    rfl
  | cons text texts ih =>
    cases ts with
    | nil => cases h
    | cons t ts =>
      rw [glue] at h
      split at h
      · rw [List.length_cons, List.length_cons, ih h, Nat.add_assoc]
      · cases h

theorem total_of_readToken {texts : List String} {i next : Input}
    (h : readToken texts i = some (nodes, next)) : total next = total i := by
  unfold readToken at h
  split at h
  · rename_i text more t rest hrest
    rw [total, total, hrest, List.length_cons]
    split at h
    · split at h
      · cases h
        show i.position + 1 + rest.length = _
        omega
      · split at h
        · rename_i stop left glued
          have := length_of_glue glued
          cases h
          show i.position + (more.length + 1) + left.length = _
          omega
        · cases h
    · cases h
  · cases h

theorem total_of_readLeaf {test : Token → Option Label} {i next : Input}
    (h : readLeaf test i = some (nodes, next)) : total next = total i := by
  unfold readLeaf at h
  split at h
  · rename_i t rest hrest
    obtain ⟨_, _, same⟩ := Option.map_eq_some_iff.1 h
    cases same
    rw [total, total, hrest, List.length_cons]
    show i.position + 1 + rest.length = _
    omega
  · cases h

theorem takeToken_eq (texts : List String) (i : Input) :
    takeToken texts i.rest = (attempt i (readToken texts i)).reading := by
  obtain ⟨position, rest⟩ := i
  rw [takeToken, attempt, attempt, Outcome.reading, Outcome.reading]
  unfold readToken
  cases texts with
  | nil => rfl
  | cons text more =>
    cases rest with
    | nil => rfl
    | cons t rest =>
      dsimp only
      split
      · split
        · rfl
        · cases glue t.stop more rest <;> rfl
      · rfl

theorem takeLeaf_eq (test : Token → Option Label) (i : Input) :
    takeLeaf test i.rest = (attempt i (readLeaf test i)).reading := by
  obtain ⟨position, rest⟩ := i
  rw [takeLeaf, attempt, attempt, Outcome.reading, Outcome.reading]
  unfold readLeaf
  cases rest with
  | nil => rfl
  | cons t rest =>
    dsimp only
    cases test t <;> rfl

/-- Whatever is read, the position counts the tokens that were taken. -/
theorem total_of_read {fuel : Nat} {i next : Input}
    (h : (read grammar fuel rule op i).result = some (nodes, next)) : total next = total i := by
  induction fuel generalizing rule op nodes i next with
  | zero => cases h
  | succ fuel ih =>
    have part {rule : Rule S} {op nodes : List Node} {i next : Input} {reach : Nat}
        (whole : read grammar fuel rule op i = ⟨reach, some (nodes, next)⟩) : total next = total i :=
      ih (congrArg Outcome.result whole)
    cases rule with
    | empty | left =>
      cases h
      rfl
    | token texts => exact total_of_readToken h
    | leaf text k => exact total_of_readLeaf h
    | name k => exact total_of_readLeaf h
    | literal => exact total_of_readLeaf h
    | ref s => exact ih h
    | seq a b =>
      simp only [read] at h
      split at h
      · cases h
      · rename_i first
        split at h
        · cases h
        · rename_i second
          cases h
          exact (part second).trans (part first)
    | alt a b =>
      simp only [read] at h
      split at h
      · rename_i first
        cases h
        exact part first
      · exact ih h
    | many r =>
      simp only [read] at h
      split at h
      · cases h
        rfl
      · rename_i first
        split at h
        · cases h
          rfl
        · split at h
          · cases h
            exact part first
          · rename_i more
            cases h
            exact (part more).trans (part first)
    | «unless» r =>
      simp only [read] at h
      split at h
      · cases h
      · cases h
        rfl
    | node k r =>
      obtain ⟨⟨inside, last⟩, found, same⟩ := Option.map_eq_some_iff.1 h
      cases same
      exact ih found
    | field part r =>
      obtain ⟨⟨inside, last⟩, found, same⟩ := Option.map_eq_some_iff.1 h
      cases same
      exact ih found
    | chain base suffix =>
      simp only [read] at h
      split at h
      · cases h
      · rename_i first
        split at h
        · cases h
          exact part first
        · rename_i step
          split at h
          · cases h
            exact part first
          · exact (ih h).trans ((part step).trans (part first))

/-! ### Room enough -/

/-- How deep rules may be nested before a token has been taken, where `room` says so for each symbol. A
rule that comes after a token has the room that the token leaves. -/
def entry (room : S → Nat) : Rule S → Nat
  | .ref s => room s + 1
  | .seq a b => 1 + max (entry room a) (entry room b - if consumes a then 500 else 0)
  | .alt a b => 1 + max (entry room a) (entry room b)
  | .many r | .unless r | .node _ r | .field _ r => 1 + entry room r
  | .chain base suffix =>
    1 + max (entry room base)
      (max (entry room suffix - if consumes base then 500 else 0) (entry room suffix - 499))
  | _ => 1

theorem entry_pos (room : S → Nat) (rule : Rule S) : 0 < entry room rule := by
  cases rule <;> simp only [entry] <;> omega

/-- A grammar in which no symbol refers to itself before a token has been taken. -/
structure Enters (grammar : S → Rule S) (room : S → Nat) : Prop where
  takes : ∀ s, (grammar s).consumes = true
  room : ∀ s, entry room (grammar s) ≤ room s

/-- What is read within a bound that leaves enough room is the reading. -/
theorem reads_of_read {room : S → Nat} (enters : Enters grammar room) {fuel : Nat} {i : Input}
    (enough : 500 * i.rest.length + entry room rule ≤ fuel) :
    Reads grammar rule op i.rest (read grammar fuel rule op i).reading := by
  induction fuel generalizing rule op i with
  | zero =>
    have := entry_pos room rule
    omega
  | succ fuel ih =>
    -- what a part of the rule reads, and how many tokens it leaves
    have part {rule : Rule S} {op nodes : List Node} {i next : Input} {reach : Nat}
        (whole : read grammar fuel rule op i = ⟨reach, some (nodes, next)⟩)
        (enough : 500 * i.rest.length + entry room rule ≤ fuel) :
        Reads grammar rule op i.rest (some (nodes, next.rest)) ∧ next.rest.length ≤ i.rest.length ∧
          (rule.consumes = true → next.rest.length < i.rest.length) ∧
          (next.position ≤ i.position ↔ i.rest.length ≤ next.rest.length) := by
      obtain ⟨ts, split, derives⟩ := derives_of_read (congrArg Outcome.result whole)
      have size := congrArg List.length split
      rw [List.length_append] at size
      have all := total_of_read (congrArg Outcome.result whole)
      rw [total, total] at all
      refine ⟨?_, by omega, fun consumes => ?_, by omega⟩
      · have reads : Reads grammar rule op i.rest (read grammar fuel rule op i).reading := ih enough
        rwa [whole] at reads
      · have := List.length_pos_iff.2 (derives.ne_nil enters.takes consumes)
        omega
    have fails {rule : Rule S} {op : List Node} {i : Input} {reach : Nat}
        (whole : read grammar fuel rule op i = ⟨reach, none⟩)
        (enough : 500 * i.rest.length + entry room rule ≤ fuel) : Reads grammar rule op i.rest none := by
      have reads : Reads grammar rule op i.rest (read grammar fuel rule op i).reading := ih enough
      rwa [whole] at reads
    cases rule with
    | empty => exact .empty
    | left => exact .left
    | token texts => exact takeToken_eq texts i ▸ .token texts
    | leaf text k => exact takeLeaf_eq _ i ▸ .leaf text k
    | name k => exact takeLeaf_eq _ i ▸ .name k
    | literal => exact takeLeaf_eq _ i ▸ .literal
    | ref s =>
      rw [entry] at enough
      have := enters.room s
      exact .ref (ih (by omega))
    | seq a b =>
      rw [entry] at enough
      simp only [read]
      rcases first : read grammar fuel a op i with ⟨reach, _ | ⟨nodes, next⟩⟩
      · exact .seqFail (fails first (by omega))
      · obtain ⟨reads, shorter, strictly, _⟩ := part first (by omega)
        have space : 500 * next.rest.length + entry room b ≤ fuel := by
          split at enough
          · have := strictly (by assumption)
            omega
          · omega
        have more : Reads grammar b op next.rest (read grammar fuel b op next).reading := ih space
        have whole := reads.seq more
        dsimp only
        rcases second : read grammar fuel b op next with ⟨reach', _ | ⟨others, last⟩⟩ <;>
          (rw [second] at whole; exact whole)
    | alt a b =>
      rw [entry] at enough
      simp only [read]
      rcases first : read grammar fuel a op i with ⟨reach, _ | ⟨nodes, next⟩⟩
      · exact .altSecond (fails first (by omega)) (ih (by omega))
      · exact .altFirst (part first (by omega)).1
    | many r =>
      simp only [read]
      have inner : 500 * i.rest.length + entry room r ≤ fuel := by
        rw [entry] at enough
        omega
      rcases first : read grammar fuel r op i with ⟨reach, _ | ⟨nodes, next⟩⟩
      · exact .manyStop (fails first inner)
      · obtain ⟨reads, _, _, stands⟩ := part first inner
        dsimp only
        split
        · exact .manyStuck reads (stands.1 (by assumption))
        · rename_i moves
          have shorter := mt stands.2 moves
          have more : Reads grammar (.many r) op next.rest (read grammar fuel (.many r) op next).reading :=
            ih (by omega)
          have whole := reads.manyMore (by omega) more
          rcases others : read grammar fuel (.many r) op next with ⟨reach', _ | ⟨found, last⟩⟩
          · rw [others] at more
            exact (not_reads_many_none more).elim
          · rw [others] at whole
            exact whole
    | «unless» r =>
      rw [entry] at enough
      simp only [read]
      rcases first : read grammar fuel r op i with ⟨reach, _ | ⟨nodes, next⟩⟩
      · exact .unless (fails first (by omega))
      · exact .unlessFail (part first (by omega)).1
    | node k r =>
      rw [entry] at enough
      have part : Reads grammar r op i.rest (read grammar fuel r op i).reading := ih (by omega)
      have inner := part.node k
      simp only [read]
      rcases found : read grammar fuel r op i with ⟨reach, _ | ⟨nodes, next⟩⟩ <;> rwa [found] at inner
    | field k r =>
      rw [entry] at enough
      have part : Reads grammar r op i.rest (read grammar fuel r op i).reading := ih (by omega)
      have inner := part.field k
      simp only [read]
      rcases found : read grammar fuel r op i with ⟨reach, _ | ⟨nodes, next⟩⟩ <;> rwa [found] at inner
    | chain base suffix =>
      rw [entry] at enough
      have := entry_pos room base
      simp only [read]
      rcases first : read grammar fuel base op i with ⟨reach, _ | ⟨nodes, next⟩⟩
      · exact .chainFail (fails first (by omega))
      · obtain ⟨reads, shorter, strictly, _⟩ := part first (by omega)
        have space : 500 * next.rest.length + entry room suffix ≤ fuel := by
          split at enough
          · have := strictly (by assumption)
            omega
          · omega
        dsimp only
        rcases step : read grammar fuel suffix nodes next with ⟨reach', _ | ⟨longer, after⟩⟩
        · exact .chainStop reads (fails step space)
        · obtain ⟨steps, _, _, stands⟩ := part step space
          dsimp only
          split
          · exact .chainStuck reads steps (stands.1 (by assumption))
          · rename_i moves
            have further := mt stands.2 moves
            refine .chainMore reads steps (by omega) (ih ?_)
            simp only [entry, consumes, Bool.false_eq_true, ↓reduceIte]
            omega

/-- The reading is what is read within any bound that leaves enough room. -/
theorem Reads.read {room : S → Nat} (enters : Enters grammar room) {fuel : Nat} {i : Input}
    (h : Reads grammar rule op i.rest out) (enough : 500 * i.rest.length + entry room rule ≤ fuel) :
    (Rule.read grammar fuel rule op i).reading = out :=
  (reads_of_read enters enough).unique h

/-- What is read has a derivation from the tokens that it takes. -/
theorem Reads.derives {room : S → Nat} (enters : Enters grammar room)
    (h : Reads grammar rule op ts (some (nodes, rest))) :
    ∃ us, ts = us ++ rest ∧ Derives grammar rule op us nodes := by
  have found := Reads.read enters (i := ⟨0, ts⟩) h (Nat.le_refl _)
  obtain ⟨⟨_, next⟩, result, same⟩ := Option.map_eq_some_iff.1 found
  cases same
  exact derives_of_read result

end Rule

/-! ### Compilation units -/

namespace Grammar

/-- How deep rules may be nested inside a symbol before a token has been taken. -/
def room : Symbol → Nat
  | .block | .classBody => 3
  | .annotationUse => 4
  | .recordPattern => 6
  | .plainType => 11
  | .type => 20
  | .typeDeclaration => 40
  | .unary => 60
  | .conditional => 220
  | .expression => 225
  | .initializer | .elementValue => 235
  | .statement => 260

theorem enters_ruleOf : Rule.Enters ruleOf room where
  takes s := by cases s <;> rfl
  room s := by cases s <;> decide +kernel

end Grammar

/-- Reading a compilation unit leaves room for every rule. -/
theorem reads_readProgram (ts : List Token) :
    Rule.Reads Grammar.ruleOf Grammar.program [] ts (readProgram ts).reading := by
  have enough : 500 * ts.length + Rule.entry Grammar.room Grammar.program ≤ nestingBound ts.length := by
    have shallow : Rule.entry Grammar.room Grammar.program ≤ 1000 := by decide +kernel
    rw [nestingBound]
    omega
  unfold readProgram
  exact Rule.reads_of_read (i := ⟨0, ts⟩) Grammar.enters_ruleOf enough

/-- The tokens make up a compilation unit just when a reading takes all of them. -/
theorem complete?_eq_some_iff {ts : List Token} {nodes : List Node} :
    (readProgram ts).complete? = some nodes ↔
      Rule.Reads Grammar.ruleOf Grammar.program [] ts (some (nodes, [])) := by
  have reads := reads_readProgram ts
  rw [Outcome.complete?]
  generalize readProgram ts = outcome at reads
  obtain ⟨reach, result⟩ := outcome
  cases result with
  | none => exact ⟨fun h => (by cases h), fun h => (by cases reads.unique h)⟩
  | some found =>
    obtain ⟨found, position, rest⟩ := found
    constructor
    · intro h
      cases rest with
      | nil =>
        cases h
        exact reads
      | cons t rest => cases h
    · intro h
      cases reads.unique h
      rfl

end MonoTap.Java

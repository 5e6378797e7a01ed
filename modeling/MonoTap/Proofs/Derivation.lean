import MonoTap.Java.Rule

/-!
# Derivations

What a rule may match, without the order of choices and the bound on nesting: a relation between the
rule, the left part of the chain around it, the tokens it takes and the nodes it gives. Whatever is
read has a derivation, so that properties of trees can be proved by induction on derivations.
-/

set_option autoImplicit false

namespace MonoTap.Java

/-- Tokens with the given texts that stand side by side, from one offset to another. -/
inductive Adjacent : Nat → List String → List Token → Nat → Prop
  | nil (stop : Nat) : Adjacent stop [] [] stop
  | cons {start stop : Nat} {text : String} {texts : List String} {t : Token} {ts : List Token}
      (joined : t.start = start) (bare : t.extras = []) (reads : t.reads text = true)
      (more : Adjacent t.stop texts ts stop) : Adjacent start (text :: texts) (t :: ts) stop

namespace Rule

variable {S : Type}

/-- The nodes that a rule may give for some tokens, where `operand` is the left part of the chain
around it. -/
inductive Derives (grammar : S → Rule S) :
    Rule S → (operand : List Node) → List Token → List Node → Prop
  | empty {op : List Node} : Derives grammar .empty op [] []
  | left {op : List Node} : Derives grammar .left op [] op
  | token {op : List Node} {text : String} {t : Token} (reads : t.reads text = true) :
      Derives grammar (.token [text]) op [t] (t.toNodes (.token text))
  | glued {op : List Node} {text next : String} {texts : List String} {t : Token} {ts : List Token}
      {stop : Nat} (reads : t.reads text = true) (more : Adjacent t.stop (next :: texts) ts stop) :
      Derives grammar (.token (text :: next :: texts)) op (t :: ts)
        (t.extras ++ [.mk (.token (String.join (text :: next :: texts))) none t.start stop []])
  | leaf {op : List Node} {text : String} {k : Kind} {t : Token} (reads : t.reads text = true) :
      Derives grammar (.leaf text k) op [t] (t.toNodes (.kind k))
  | name {op : List Node} {k : Kind} {t : Token} (isName : t.isName = true) :
      Derives grammar (.name k) op [t] (t.toNodes (.kind k))
  | literal {op : List Node} {label : Label} {t : Token} (is : literalLabel? t = some label) :
      Derives grammar .literal op [t] (t.toNodes label)
  | ref {op nodes : List Node} {s : S} {ts : List Token}
      (inner : Derives grammar (grammar s) op ts nodes) : Derives grammar (.ref s) op ts nodes
  | seq {a b : Rule S} {op first second : List Node} {ts us : List Token}
      (left : Derives grammar a op ts first) (right : Derives grammar b op us second) :
      Derives grammar (.seq a b) op (ts ++ us) (first ++ second)
  | altLeft {a b : Rule S} {op nodes : List Node} {ts : List Token}
      (left : Derives grammar a op ts nodes) : Derives grammar (.alt a b) op ts nodes
  | altRight {a b : Rule S} {op nodes : List Node} {ts : List Token}
      (right : Derives grammar b op ts nodes) : Derives grammar (.alt a b) op ts nodes
  | manyNil {r : Rule S} {op : List Node} : Derives grammar (.many r) op [] []
  | manyCons {r : Rule S} {op first others : List Node} {ts us : List Token}
      (head : Derives grammar r op ts first) (tail : Derives grammar (.many r) op us others) :
      Derives grammar (.many r) op (ts ++ us) (first ++ others)
  | unless {r : Rule S} {op : List Node} : Derives grammar (.unless r) op [] []
  | node {r : Rule S} {k : Kind} {op nodes : List Node} {ts : List Token}
      (inner : Derives grammar r op ts nodes) :
      Derives grammar (.node k r) op ts (Node.wrap k nodes)
  | field {r : Rule S} {part : Role} {op nodes : List Node} {ts : List Token}
      (inner : Derives grammar r op ts nodes) :
      Derives grammar (.field part r) op ts (Node.assign part nodes)
  | chainBase {base suffix : Rule S} {op nodes : List Node} {ts : List Token}
      (inner : Derives grammar base op ts nodes) : Derives grammar (.chain base suffix) op ts nodes
  | chainMore {base suffix : Rule S} {op nodes longer result : List Node} {ts us vs : List Token}
      (inner : Derives grammar base op ts nodes) (step : Derives grammar suffix nodes us longer)
      (more : Derives grammar (.chain .left suffix) longer vs result) :
      Derives grammar (.chain base suffix) op (ts ++ (us ++ vs)) result

theorem adjacent_of_glue {start stop : Nat} {texts : List String} {tokens rest : List Token}
    (h : glue start texts tokens = some (stop, rest)) :
    ∃ ts, tokens = ts ++ rest ∧ Adjacent start texts ts stop := by
  induction texts generalizing start tokens with
  | nil =>
    cases h
    exact ⟨[], rfl, .nil _⟩
  | cons text texts ih =>
    cases tokens with
    | nil => cases h
    | cons t tokens =>
      rw [glue] at h
      split at h
      · rename_i fits
        simp only [Bool.and_eq_true, beq_iff_eq, List.isEmpty_iff] at fits
        obtain ⟨ts, rfl, more⟩ := ih h
        exact ⟨t :: ts, rfl, .cons fits.1.1 fits.1.2 fits.2 more⟩
      · cases h

theorem derives_of_readToken {grammar : S → Rule S} {texts : List String} {op nodes : List Node}
    {i next : Input} (h : readToken texts i = some (nodes, next)) :
    ∃ ts, i.rest = ts ++ next.rest ∧ Derives grammar (.token texts) op ts nodes := by
  unfold readToken at h
  split at h
  · rename_i text more t rest hrest
    split at h
    · rename_i reads
      split at h
      · rename_i single
        cases List.isEmpty_iff.1 single
        cases h
        exact ⟨[t], hrest, .token reads⟩
      · rename_i several
        cases more with
        | nil => exact (several rfl).elim
        | cons second texts =>
          split at h
          · rename_i stop tokens hglue
            cases h
            obtain ⟨ts, rfl, adjacent⟩ := adjacent_of_glue hglue
            exact ⟨t :: ts, hrest, .glued reads adjacent⟩
          · cases h
    · cases h
  · cases h

theorem exists_token_of_readLeaf {test : Token → Option Label} {nodes : List Node} {i next : Input}
    (h : readLeaf test i = some (nodes, next)) :
    ∃ t label, i.rest = [t] ++ next.rest ∧ test t = some label ∧ nodes = t.toNodes label := by
  unfold readLeaf at h
  split at h
  · rename_i t rest hrest
    obtain ⟨label, hlabel, heq⟩ := Option.map_eq_some_iff.1 h
    cases heq
    exact ⟨t, label, hrest, hlabel, rfl⟩
  · cases h

/-- What is read has a derivation from the tokens that it takes. -/
theorem derives_of_read {grammar : S → Rule S} {fuel : Nat} {rule : Rule S} {op nodes : List Node}
    {i next : Input} (h : (read grammar fuel rule op i).result = some (nodes, next)) :
    ∃ ts, i.rest = ts ++ next.rest ∧ Derives grammar rule op ts nodes := by
  induction fuel generalizing rule op nodes i next with
  | zero => cases h
  | succ fuel ih =>
    -- the same, where the outcome is known as a whole
    have part {rule : Rule S} {op nodes : List Node} {i next : Input} {reach : Nat}
        (whole : read grammar fuel rule op i = ⟨reach, some (nodes, next)⟩) :
        ∃ ts, i.rest = ts ++ next.rest ∧ Derives grammar rule op ts nodes :=
      ih (congrArg Outcome.result whole)
    cases rule with
    | empty =>
      cases h
      exact ⟨[], rfl, .empty⟩
    | left =>
      cases h
      exact ⟨[], rfl, .left⟩
    | token texts => exact derives_of_readToken h
    | leaf text k =>
      obtain ⟨t, label, hrest, test, rfl⟩ := exists_token_of_readLeaf h
      simp only [Option.ite_none_right_eq_some, Option.some.injEq] at test
      obtain ⟨reads, rfl⟩ := test
      exact ⟨[t], hrest, .leaf reads⟩
    | name k =>
      obtain ⟨t, label, hrest, test, rfl⟩ := exists_token_of_readLeaf h
      simp only [Option.ite_none_right_eq_some, Option.some.injEq] at test
      obtain ⟨isName, rfl⟩ := test
      exact ⟨[t], hrest, .name isName⟩
    | literal =>
      obtain ⟨t, label, hrest, test, rfl⟩ := exists_token_of_readLeaf h
      exact ⟨[t], hrest, .literal test⟩
    | ref s =>
      obtain ⟨ts, hrest, inner⟩ := ih h
      exact ⟨ts, hrest, .ref inner⟩
    | seq a b =>
      simp only [read] at h
      split at h
      · cases h
      · rename_i ha
        split at h
        · cases h
        · rename_i hb
          cases h
          obtain ⟨ts, hts, left⟩ := part ha
          obtain ⟨us, hus, right⟩ := part hb
          exact ⟨ts ++ us, by rw [hts, hus, List.append_assoc], .seq left right⟩
    | alt a b =>
      simp only [read] at h
      split at h
      · rename_i ha
        cases h
        obtain ⟨ts, hts, left⟩ := part ha
        exact ⟨ts, hts, .altLeft left⟩
      · obtain ⟨ts, hts, right⟩ := ih h
        exact ⟨ts, hts, .altRight right⟩
    | many r =>
      simp only [read] at h
      split at h
      · cases h
        exact ⟨[], rfl, .manyNil⟩
      · rename_i hr
        split at h
        · cases h
          exact ⟨[], rfl, .manyNil⟩
        · obtain ⟨ts, hts, head⟩ := part hr
          split at h
          · cases h
            have only := Derives.manyCons head .manyNil
            rw [List.append_nil, List.append_nil] at only
            exact ⟨ts, hts, only⟩
          · rename_i hmore
            cases h
            obtain ⟨us, hus, tail⟩ := part hmore
            exact ⟨ts ++ us, by rw [hts, hus, List.append_assoc], .manyCons head tail⟩
    | «unless» r =>
      simp only [read] at h
      split at h
      · cases h
      · cases h
        exact ⟨[], rfl, .unless⟩
    | node k r =>
      obtain ⟨⟨inside, after⟩, hinside, same⟩ := Option.map_eq_some_iff.1 h
      cases same
      obtain ⟨ts, hts, inner⟩ := ih hinside
      exact ⟨ts, hts, .node inner⟩
    | field role r =>
      obtain ⟨⟨inside, after⟩, hinside, same⟩ := Option.map_eq_some_iff.1 h
      cases same
      obtain ⟨ts, hts, inner⟩ := ih hinside
      exact ⟨ts, hts, .field inner⟩
    | chain base suffix =>
      simp only [read] at h
      split at h
      · cases h
      · rename_i hbase
        obtain ⟨ts, hts, inner⟩ := part hbase
        split at h
        · cases h
          exact ⟨ts, hts, .chainBase inner⟩
        · rename_i hsuffix
          split at h
          · cases h
            exact ⟨ts, hts, .chainBase inner⟩
          · obtain ⟨us, hus, step⟩ := part hsuffix
            obtain ⟨vs, hvs, more⟩ := ih h
            exact ⟨ts ++ (us ++ vs), by rw [hts, hus, hvs, List.append_assoc, List.append_assoc],
              .chainMore inner step more⟩

end Rule

end MonoTap.Java

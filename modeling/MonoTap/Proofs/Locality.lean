import Mathlib.Algebra.Ring.Int.Defs
import MonoTap.Proofs.Readings

/-!
# Locality

What is read from the tokens of a construct does not depend on the tokens after it. Reading tries out
choices, and one that does not match may look far ahead; but it never looks beyond a bracket that closes
what was open before, and where no bracket is open the token after the construct is one that does not go
on with it. The tokens are therefore followed by their brackets: how many have been opened, and whether
the end of the construct may have been reached.
-/

set_option autoImplicit false

namespace MonoTap.Java

/-! ### Brackets -/

/-- The marks that hold constructs together or end them. -/
def punctuation : List String :=
  ["(", ")", "\x7b", "\x7d", ";"]

/-- The brackets that a text opens, less those that it closes. -/
def bracketsOf (text : String) : Int :=
  if text = "(" ∨ text = "\x7b" then 1 else if text = ")" ∨ text = "\x7d" then -1 else 0

/-- Whether a text may end a construct at the top level. -/
def isEnd (text : String) : Bool :=
  text == ";" || text == "\x7d"

namespace Token

/-- The brackets that a token opens, less those that it closes. -/
def brackets (t : Token) : Int :=
  if punctuation.any t.reads then bracketsOf t.text else 0

/-- Whether a token may end a construct at the top level. -/
def ends (t : Token) : Bool :=
  t.reads ";" || t.reads "\x7d"

/-- Whether a token that can be a name is no mark. -/
def Plain (t : Token) : Prop :=
  t.isName = true → t.text ∉ "@" :: punctuation

variable {t : Token} {text : String}

theorem reads_self (h : t.reads text = true) : t.reads t.text = true := by
  rwa [text_of_reads h]

theorem brackets_of_reads (h : t.reads text = true) : t.brackets = bracketsOf text := by
  have same := text_of_reads h
  rw [brackets, same]
  split
  · rfl
  · rename_i other
    have apart : text ∉ punctuation := fun mem => other (List.any_eq_true.2 ⟨text, mem, h⟩)
    simp only [punctuation, List.mem_cons, List.not_mem_nil, or_false, not_or] at apart
    rw [bracketsOf, if_neg fun h => h.elim apart.1 apart.2.2.1,
      if_neg fun h => h.elim apart.2.1 apart.2.2.2.1]

theorem ends_of_reads (h : t.reads text = true) : t.ends = isEnd text := by
  have same := text_of_reads h
  have reads (other : String) : t.reads other = (text == other) := by
    rw [reads, Bool.and_eq_true] at h
    rw [Token.reads, h.1, Bool.true_and, same]
  rw [ends, reads, reads, isEnd]

/-- A token that no mark reads. -/
theorem brackets_eq_zero (h : ∀ text ∈ punctuation, t.reads text = false) : t.brackets = 0 := by
  rw [brackets, if_neg]
  intro some
  obtain ⟨text, mem, reads⟩ := List.any_eq_true.1 some
  rw [h text mem] at reads
  cases reads

theorem ends_eq_false (h : ∀ text ∈ punctuation, t.reads text = false) : t.ends = false := by
  rw [ends, h ";" (by decide), h "\x7d" (by decide)]
  rfl

theorem Plain.not_reads (plain : t.Plain) (isName : t.isName = true) :
    ∀ text ∈ punctuation, t.reads text = false := by
  intro text mem
  cases reads : t.reads text with
  | false => rfl
  | true => exact (plain isName (List.mem_cons_of_mem _ (text_of_reads reads ▸ mem))).elim

theorem not_reads_of_literal {label : Label} (h : Rule.literalLabel? t = some label) (text : String) :
    t.reads text = false := by
  unfold Rule.literalLabel? at h
  split at h
  · rename_i k kind
    rw [reads, kind]
    rfl
  · cases h

end Token

/-- The brackets that some tokens open, less those that they close. -/
def brackets (ts : List Token) : Int :=
  (ts.map Token.brackets).sum

@[simp] theorem brackets_nil : brackets [] = 0 := rfl

@[simp] theorem brackets_cons (t : Token) (ts : List Token) :
    brackets (t :: ts) = t.brackets + brackets ts := by
  rw [brackets, List.map_cons, List.sum_cons, brackets]

@[simp] theorem brackets_append (ts us : List Token) :
    brackets (ts ++ us) = brackets ts + brackets us := by
  rw [brackets, List.map_append, List.sum_append, brackets, brackets]

/-! ### What comes after the tokens of a construct -/

/-- What is known of the tokens that come after. -/
inductive Edge where
  /-- They come after a bracket that closes. -/
  | inside
  /-- They begin with a mark or a reserved word that is among these. -/
  | before (texts : List String)
  /-- Nothing. -/
  | anywhere
  deriving DecidableEq

/-- Whether some tokens are such as may come after. -/
def Edge.Admits : Edge → List Token → Prop
  | .before texts, ts =>
    ∃ t rest, ts = t :: rest ∧ t.isName = false ∧ ∃ text ∈ texts, t.reads text = true
  | _, _ => True

/-- Whether no token that comes after reads like this. -/
def Edge.bars (edge : Edge) (text : String) : Bool :=
  match edge with
  | .before texts => !texts.contains text
  | _ => false

/-- Whether something is known of the token that comes after. -/
def Edge.isKnown : Edge → Bool
  | .before _ => true
  | _ => false

/-- The number of brackets that are open around the tokens in any case. -/
def Edge.around : Edge → Nat
  | .inside => 1
  | _ => 0

/-- How far reading has come: how many brackets have been opened, and whether there is surely a token
before the edge. -/
structure Stand where
  depth : Nat
  more : Bool
  deriving DecidableEq

namespace Stand

/-- Whether the edge cannot have been reached. -/
def isWithin (s : Stand) (edge : Edge) : Bool :=
  s.more || 0 < s.depth || edge == .inside

/-- What is known in both of two cases. -/
def meet (s t : Stand) : Option Stand :=
  if s.depth = t.depth then some ⟨s.depth, s.more && t.more⟩ else none

/-- After a token with the given text. -/
def step (s : Stand) (text : String) : Option Stand :=
  if text = "(" ∨ text = "\x7b" then some ⟨s.depth + 1, true⟩
  else if text = ")" ∨ text = "\x7d" then
    if s.depth = 0 then none else some ⟨s.depth - 1, !isEnd text⟩
  else some ⟨s.depth, !isEnd text⟩

/-- Something that depends on where reading stands. That is brought into a normal form first, so that it
is quick to evaluate. -/
def normally {α : Type} (s : Stand) (f : Stand → α) : α :=
  match s with
  | ⟨0, true⟩ => f ⟨0, true⟩
  | ⟨0, false⟩ => f ⟨0, false⟩
  | ⟨1, true⟩ => f ⟨1, true⟩
  | ⟨1, false⟩ => f ⟨1, false⟩
  | s => f s

theorem normally_eq {α : Type} (s : Stand) (f : Stand → α) : s.normally f = f s := by
  unfold normally
  split <;> rfl

/-- Tokens of a construct at which reading may stand: they close what is open, and they end as
constructs do. -/
structure Holds (s : Stand) (edge : Edge) (ts : List Token) : Prop where
  plain : ∀ t ∈ ts, t.Plain
  closed : ∀ t, ts.getLast? = some t → t.ends = true
  depth : brackets ts + s.depth + edge.around ≤ 0
  more : s.more = true → ts ≠ []

end Stand

namespace Rule

variable {S : Type}

/-- What is known of a grammar where some tokens come after: the symbols that may be read without an open
bracket, and those that may be so even at the edge. -/
structure Scope (S : Type) where
  edge : Edge
  level : S → Bool
  guarded : S → Bool

/-- Where a bracket is open everything may be read. -/
def Scope.inner : Scope S := ⟨.inside, fun _ => true, fun _ => true⟩

/-- Whether a repetition leaves things as they are. -/
def settle (before after : Stand) : Option Stand :=
  if after.depth = before.depth ∧ (before.more = true → after.more = true) then some before else none

/-- Where reading a rule comes to, if it is sure never to depend on what comes after. `ends` tells the
symbols that may end like a construct at the top level. -/
def trace (ends : S → Bool) (c : Scope S) : Rule S → Stand → Option Stand
  | .empty, s | .left, s => some s
  | .token [], _ => none
  | .token [text], s => if s.isWithin c.edge || c.edge.bars text then s.step text else none
  | .token (text :: texts), s =>
    if (s.isWithin c.edge || c.edge.bars text) && (text :: texts).all (!punctuation.contains ·) then
      some ⟨s.depth, true⟩
    else none
  | .leaf text _, s =>
    if (s.isWithin c.edge || c.edge.bars text) && !punctuation.contains text then some ⟨s.depth, true⟩
    else none
  | .name _, s | .literal, s =>
    if s.isWithin c.edge || c.edge.isKnown then some ⟨s.depth, true⟩ else none
  | .ref x, s =>
    if 0 < s.depth || c.edge == .inside || s.more && c.level x then some ⟨s.depth, !ends x⟩
    else if c.guarded x then some ⟨s.depth, false⟩ else none
  | .seq a b, s => (trace ends c a s).bind fun t => t.normally (trace ends c b)
  | .alt a b, s => (trace ends c a s).bind fun t => (trace ends c b s).bind t.meet
  | .many r, s =>
    (trace ends c r s).bind fun t => (s.meet t).bind fun m =>
      m.normally fun m => (trace ends c r m).bind (settle m)
  | .unless r, s => (trace ends c r s).map fun _ => s
  | .node _ r, s | .field _ r, s => trace ends c r s
  | .chain base suffix, s =>
    (trace ends c base s).bind fun s => s.normally fun s =>
      (trace ends c suffix s).bind fun t => (s.meet t).bind fun m =>
        m.normally fun m => (trace ends c suffix m).bind (settle m)

/-- The symbols of a grammar are traced as they are known to be. -/
structure Scope.Fits (grammar : S → Rule S) (ends : S → Bool) (c : Scope S) : Prop where
  level : ∀ s, c.level s = true → (grammar s).trace ends c ⟨0, true⟩ = some ⟨0, !ends s⟩
  guarded : ∀ s, c.guarded s = true → ((grammar s).trace ends c ⟨0, false⟩).map Stand.depth = some 0

end Rule

/-! ### Tokens before the edge -/

namespace Stand

variable {s s' s'' m : Stand} {edge : Edge} {ts rest : List Token} {t : Token} {text : String}

/-- Reading comes from some tokens to the rest of them. -/
def Reaches (s : Stand) (ts : List Token) (s' : Stand) (rest : List Token) : Prop :=
  ∃ front, ts = front ++ rest ∧ (s'.depth : Int) = s.depth + brackets front ∧ (s'.more = true → rest ≠ [])

theorem Reaches.refl (h : s.more = true → ts ≠ []) : s.Reaches ts s ts :=
  ⟨[], rfl, by simp, h⟩

theorem Reaches.trans {middle : List Token} (first : s.Reaches ts s' middle)
    (second : s'.Reaches middle s'' rest) : s.Reaches ts s'' rest := by
  obtain ⟨front, rfl, depth, _⟩ := first
  obtain ⟨back, rfl, depth', more⟩ := second
  refine ⟨front ++ back, (List.append_assoc ..).symm, ?_, more⟩
  rw [brackets_append]
  omega

theorem Holds.reaches (holds : s.Holds edge ts) (h : s.Reaches ts s' rest) : s'.Holds edge rest := by
  obtain ⟨front, rfl, depth, more⟩ := h
  have enough := holds.depth
  rw [brackets_append] at enough
  refine ⟨fun t ht => holds.plain t (List.mem_append_right _ ht), fun t ht => holds.closed t ?_, by omega,
    more⟩
  rw [List.getLast?_append, ht]
  rfl

theorem Reaches.weaken (h : s.Reaches ts s' rest) (depth : m.depth = s'.depth)
    (more : m.more = true → s'.more = true) : s.Reaches ts m rest := by
  obtain ⟨front, split, same, further⟩ := h
  exact ⟨front, split, by omega, fun h => further (more h)⟩

theorem of_meet (h : s.meet s' = some m) :
    m.depth = s.depth ∧ m.depth = s'.depth ∧ (m.more = true → s.more = true ∧ s'.more = true) := by
  rw [meet] at h
  split at h
  · rename_i same
    cases h
    exact ⟨rfl, same, Bool.and_eq_true_iff.1⟩
  · cases h

/-- Before the edge there is a token. -/
theorem Holds.ne_nil (holds : s.Holds edge ts) (within : s.isWithin edge = true) : ts ≠ [] := by
  rw [isWithin, Bool.or_eq_true, Bool.or_eq_true, decide_eq_true_eq, beq_iff_eq] at within
  have depth := holds.depth
  intro none
  subst none
  rw [brackets_nil] at depth
  rcases within with (more | open') | rfl
  · exact holds.more more rfl
  · omega
  · rw [Edge.around] at depth
    omega

/-- A token that does not end a construct is not the last one. -/
theorem Holds.tail_ne_nil (holds : s.Holds edge (t :: ts)) (on : t.ends = false) : ts ≠ [] := by
  rintro rfl
  have last := holds.closed t rfl
  rw [on] at last
  cases last

/-- After a token that is neither a bracket nor an end. -/
theorem Holds.reaches_tail (holds : s.Holds edge (t :: ts)) (level : t.brackets = 0) (on : t.ends = false) :
    s.Reaches (t :: ts) ⟨s.depth, true⟩ ts :=
  ⟨[t], rfl, by simp [level], fun _ => holds.tail_ne_nil on⟩

theorem Holds.reaches_step (holds : s.Holds edge (t :: ts)) (reads : t.reads text = true)
    (next : s.step text = some s') : s.Reaches (t :: ts) s' ts := by
  have own := Token.brackets_of_reads reads
  have ends := Token.ends_of_reads reads
  have onwards (on : isEnd text = false) : ts ≠ [] := holds.tail_ne_nil (ends.trans on)
  refine ⟨[t], rfl, ?_, ?_⟩
  · rw [brackets_cons, brackets_nil, own, bracketsOf]
    rw [step] at next
    split at next
    · cases next
      rename_i opens
      rw [if_pos opens]
      push_cast
      omega
    · rename_i opens
      split at next
      · rename_i closes
        split at next
        · cases next
        · cases next
          rw [if_neg opens, if_pos closes]
          push_cast
          omega
      · cases next
        rename_i closes
        rw [if_neg opens, if_neg closes, Int.add_zero, Int.add_zero]
  · rw [step] at next
    split at next
    · rename_i opens
      refine fun _ => onwards ?_
      rcases opens with rfl | rfl <;> rfl
    · split at next
      · split at next
        · cases next
        · cases next
          intro more
          exact onwards ((Bool.not_eq_true' _).mp more)
      · cases next
        intro more
        exact onwards ((Bool.not_eq_true' _).mp more)

end Stand

/-! ### Two readings -/

/-- Two readings that come to the same, before some tokens and before some others. -/
inductive Alike (first second : List Token) (reached : List Token → Prop) : Reading → Reading → Prop
  | none : Alike first second reached none none
  | some (nodes : List Node) {rest : List Token} (h : reached rest) :
      Alike first second reached (some (nodes, rest ++ first)) (some (nodes, rest ++ second))

namespace Alike

variable {first second : List Token} {reached reached' : List Token → Prop} {out out' : Reading}

theorem imp (h : Alike first second reached out out') (weaker : ∀ rest, reached rest → reached' rest) :
    Alike first second reached' out out' := by
  cases h with
  | none => exact .none
  | some nodes h => exact .some nodes (weaker _ h)

theorem after (h : Alike first second reached out out') (nodes : List Node) :
    Alike first second reached (out.after nodes) (out'.after nodes) := by
  cases h with
  | none => exact .none
  | some others h => exact .some (nodes ++ others) h

theorem as (h : Alike first second reached out out') (f : List Node → List Node) :
    Alike first second reached (out.as f) (out'.as f) := by
  cases h with
  | none => exact .none
  | some nodes h => exact .some (f nodes) h

end Alike

namespace Rule

variable {S : Type} {grammar : S → Rule S} {ends : S → Bool} {c : Scope S} {rule r a b base suffix : Rule S}
  {s s' : Stand} {edge : Edge} {op : List Node} {ts first second : List Token} {out : Reading} {t : Token}
  {text : String}

/-! ### Single tokens -/

/-- A token that comes after does not read like one that the edge bars. -/
theorem not_reads_of_bars (bars : edge.bars text = true) (after : edge.Admits first) :
    ∃ t rest, first = t :: rest ∧ t.reads text = false := by
  cases edge with
  | inside | anywhere => cases bars
  | before texts =>
    obtain ⟨t, rest, rfl, _, word, mem, reads⟩ := after
    refine ⟨t, rest, rfl, ?_⟩
    rw [← Bool.not_eq_true]
    intro same
    rw [← Token.text_of_reads reads, Token.text_of_reads same] at mem
    rw [Edge.bars, List.contains_iff_mem.2 mem] at bars
    cases bars

theorem exists_of_isKnown (known : edge.isKnown = true) (after : edge.Admits first) :
    ∃ t rest, first = t :: rest ∧ t.isName = false ∧ literalLabel? t = none := by
  cases edge with
  | inside | anywhere => cases known
  | before texts =>
    obtain ⟨t, rest, rfl, plain, word, mem, reads⟩ := after
    refine ⟨t, rest, rfl, plain, ?_⟩
    cases label : literalLabel? t with
    | none => rfl
    | some l =>
      rw [Token.not_reads_of_literal label] at reads
      cases reads

theorem takeLeaf_cons (test : Token → Option Label) (t : Token) (ts : List Token) :
    takeLeaf test (t :: ts) = (test t).map fun label => (t.toNodes label, ts) := by
  rw [takeLeaf, attempt, Outcome.reading]
  unfold readLeaf
  dsimp only
  cases test t <;> rfl

theorem takeToken_cons (text : String) (t : Token) (ts : List Token) :
    takeToken [text] (t :: ts) = if t.reads text then some (t.toNodes (.token text), ts) else none := by
  rw [takeToken, attempt, Outcome.reading]
  unfold readToken
  dsimp only
  split <;> rfl

theorem takeToken_of_not_reads (more : List String) (h : t.reads text = false) (ts : List Token) :
    takeToken (text :: more) (t :: ts) = none := by
  rw [takeToken, attempt, Outcome.reading]
  unfold readToken
  dsimp only
  rw [h, if_neg Bool.false_ne_true]
  rfl

/-- A single token that is read before the edge, or not at all. -/
theorem alike_takeLeaf {test : Token → Option Label} (holds : s.Holds edge ts)
    (plain : ∀ t ∈ ts, ∀ label, test t = some label → t.brackets = 0 ∧ t.ends = false)
    (here : s.isWithin edge = true ∨ ∀ ts, edge.Admits ts → ∃ t rest, ts = t :: rest ∧ test t = none)
    (after : edge.Admits first) (after' : edge.Admits second) :
    Alike first second (s.Reaches ts ⟨s.depth, true⟩) (takeLeaf test (ts ++ first))
      (takeLeaf test (ts ++ second)) := by
  cases ts with
  | nil =>
    rcases here with within | fails
    · exact (holds.ne_nil within rfl).elim
    · obtain ⟨t, rest, rfl, fails'⟩ := fails first after
      obtain ⟨u, rest', rfl, fails''⟩ := fails second after'
      rw [List.nil_append, List.nil_append, takeLeaf_cons, takeLeaf_cons, fails', fails'']
      exact .none
  | cons t ts =>
    rw [List.cons_append, List.cons_append, takeLeaf_cons, takeLeaf_cons]
    cases found : test t with
    | none => exact .none
    | some label =>
      obtain ⟨level, on⟩ := plain t List.mem_cons_self label found
      exact .some (t.toNodes label) (holds.reaches_tail level on)

theorem bracketsOf_eq_zero (plain : text ∉ punctuation) : bracketsOf text = 0 := by
  simp only [punctuation, List.mem_cons, List.not_mem_nil, or_false, not_or] at plain
  rw [bracketsOf, if_neg fun h => h.elim plain.1 plain.2.2.1, if_neg fun h => h.elim plain.2.1 plain.2.2.2.1]

theorem isEnd_eq_false (plain : text ∉ punctuation) : isEnd text = false := by
  simp only [punctuation, List.mem_cons, List.not_mem_nil, or_false, not_or] at plain
  rw [isEnd, beq_false_of_ne plain.2.2.2.2, beq_false_of_ne plain.2.2.2.1]
  rfl

/-- The rest of a token that is made of several, none of them a mark that ends something. -/
theorem glue_append {texts : List String} (plain : ∀ text ∈ texts, text ∉ punctuation)
    (closed : ∀ t, ts.getLast? = some t → t.ends = true) (nonempty : ts ≠ []) (stop : Nat) :
    (∀ rest, glue stop texts (ts ++ rest) = none) ∨
      ∃ stop' front back, ts = front ++ back ∧ back ≠ [] ∧ brackets front = 0 ∧
        ∀ rest, glue stop texts (ts ++ rest) = some (stop', back ++ rest) := by
  induction texts generalizing ts stop with
  | nil => exact .inr ⟨stop, [], ts, rfl, nonempty, rfl, fun rest => rfl⟩
  | cons text texts ih =>
    cases ts with
    | nil => exact (nonempty rfl).elim
    | cons t ts =>
      cases fits : t.start == stop && t.extras.isEmpty && t.reads text with
      | false =>
        refine .inl fun rest => ?_
        rw [List.cons_append, glue, fits, if_neg Bool.false_ne_true]
      | true =>
        have reads := (Bool.and_eq_true_iff.1 fits).2
        have own := plain text List.mem_cons_self
        have level : t.brackets = 0 := (Token.brackets_of_reads reads).trans (bracketsOf_eq_zero own)
        have further : ts ≠ [] := by
          rintro rfl
          have last := closed t rfl
          rw [Token.ends_of_reads reads, isEnd_eq_false own] at last
          cases last
        have step (rest : List Token) :
            glue stop (text :: texts) (t :: ts ++ rest) = glue t.stop texts (ts ++ rest) := by
          rw [List.cons_append, glue, fits, if_pos rfl]
        have closes : ∀ u, ts.getLast? = some u → u.ends = true :=
          fun u hu => closed u (by rw [List.getLast?_cons, hu]; rfl)
        rcases ih (fun text mem => plain text (List.mem_cons_of_mem _ mem)) closes further t.stop with
          fails | ⟨stop', front, back, rfl, left, balanced, found⟩
        · exact .inl fun rest => (step rest).trans (fails rest)
        · exact .inr ⟨stop', t :: front, back, rfl, left, by rw [brackets_cons, level, balanced]; rfl,
            fun rest => (step rest).trans (found rest)⟩

theorem takeToken_glue {next : String} (more : List String) (h : t.reads text = true) (ts : List Token) :
    takeToken (text :: next :: more) (t :: ts) = (glue t.stop (next :: more) ts).map fun r =>
      (t.extras ++ [.mk (.token (String.join (text :: next :: more))) none t.start r.1 []], r.2) := by
  rw [takeToken, attempt, Outcome.reading]
  unfold readToken
  dsimp only
  rw [h, if_pos rfl, if_neg (by rw [List.isEmpty_cons]; exact Bool.false_ne_true)]
  cases glue t.stop (next :: more) ts <;> rfl

theorem alike_glue {next : String} {more : List String}
    (plain : ∀ mark ∈ text :: next :: more, mark ∉ punctuation) (reads : t.reads text = true)
    (holds : s.Holds edge (t :: ts)) :
    Alike first second (s.Reaches (t :: ts) ⟨s.depth, true⟩)
      (takeToken (text :: next :: more) (t :: (ts ++ first)))
      (takeToken (text :: next :: more) (t :: (ts ++ second))) := by
  have own := plain text List.mem_cons_self
  have level : t.brackets = 0 := (Token.brackets_of_reads reads).trans (bracketsOf_eq_zero own)
  have on : t.ends = false := (Token.ends_of_reads reads).trans (isEnd_eq_false own)
  rw [takeToken_glue more reads, takeToken_glue more reads]
  rcases glue_append (fun mark mem => plain mark (List.mem_cons_of_mem _ mem))
      (fun u hu => holds.closed u (by rw [List.getLast?_cons, hu]; rfl)) (holds.tail_ne_nil on) t.stop with
    fails | ⟨stop', front, back, rfl, left, balanced, found⟩
  · rw [fails, fails]
    exact .none
  · rw [found, found]
    refine .some _ ⟨t :: front, rfl, ?_, fun _ => left⟩
    rw [brackets_cons, level, balanced]
    rfl

theorem alike_takeToken {texts : List String} (traced : (Rule.token texts).trace ends c s = some s')
    (holds : s.Holds c.edge ts) (after : c.edge.Admits first) (after' : c.edge.Admits second) :
    Alike first second (s.Reaches ts s') (takeToken texts (ts ++ first)) (takeToken texts (ts ++ second)) := by
  cases texts with
  | nil => cases traced
  | cons text more =>
    have here : (s.isWithin c.edge || c.edge.bars text) = true := by
      cases more with
      | nil => exact (Option.ite_none_right_eq_some.1 traced).1
      | cons next more => exact (Bool.and_eq_true_iff.1 (Option.ite_none_right_eq_some.1 traced).1).1
    cases ts with
    | nil =>
      have bars : c.edge.bars text = true :=
        (Bool.or_eq_true_iff.1 here).resolve_left fun within => holds.ne_nil within rfl
      obtain ⟨t, rest, rfl, fails⟩ := not_reads_of_bars bars after
      obtain ⟨u, rest', rfl, fails'⟩ := not_reads_of_bars bars after'
      rw [List.nil_append, List.nil_append, takeToken_of_not_reads more fails,
        takeToken_of_not_reads more fails']
      exact .none
    | cons t ts =>
      rw [List.cons_append, List.cons_append]
      cases reads : t.reads text with
      | false =>
        rw [takeToken_of_not_reads more reads, takeToken_of_not_reads more reads]
        exact .none
      | true =>
        cases more with
        | nil =>
          rw [takeToken_cons, takeToken_cons, reads, if_pos rfl]
          exact .some _ (holds.reaches_step reads (Option.ite_none_right_eq_some.1 traced).2)
        | cons next more =>
          obtain ⟨sure, same⟩ := Option.ite_none_right_eq_some.1 traced
          cases same
          refine alike_glue (fun mark mem punctual => ?_) reads holds
          have other := List.all_eq_true.1 (Bool.and_eq_true_iff.1 sure).2 mark mem
          rw [List.contains_iff_mem.2 punctual] at other
          cases other

/-! ### Rules -/

theorem trace_many (h : (Rule.many r).trace ends c s = some s') :
    ∃ t, r.trace ends c s = some t ∧ s.meet t = some s' ∧
      (Rule.many r).trace ends c s' = some s' := by
  simp only [trace, Stand.normally_eq, Option.bind_eq_some_iff] at h
  obtain ⟨t, first, m, both, u, again, stays⟩ := h
  rw [settle] at stays
  split at stays
  · rename_i same
    cases stays
    refine ⟨t, first, both, ?_⟩
    have fixed : s'.meet u = some s' := by
      rw [Stand.meet, if_pos same.1.symm]
      cases more : s'.more with
      | false => rw [Bool.false_and, ← more]
      | true => rw [same.2 more, Bool.true_and, ← more]
    simp only [trace, Stand.normally_eq, again, Option.bind_some, fixed, settle, if_pos same]
  · cases stays

theorem trace_chain (h : (Rule.chain base suffix).trace ends c s = some s') :
    ∃ t u, base.trace ends c s = some t ∧ suffix.trace ends c t = some u ∧ t.meet u = some s' ∧
      (Rule.chain .left suffix).trace ends c s' = some s' := by
  simp only [trace, Stand.normally_eq, Option.bind_eq_some_iff] at h
  obtain ⟨t, first, u, step, m, both, v, again, stays⟩ := h
  rw [settle] at stays
  split at stays
  · rename_i same
    cases stays
    refine ⟨t, u, first, step, both, ?_⟩
    have fixed : s'.meet v = some s' := by
      rw [Stand.meet, if_pos same.1.symm]
      cases more : s'.more with
      | false => rw [Bool.false_and, ← more]
      | true => rw [same.2 more, Bool.true_and, ← more]
    simp only [trace, Stand.normally_eq, again, Option.bind_some, fixed, settle, if_pos same]
  · cases stays

/-- What is read from the tokens of a construct does not depend on those after it. -/
theorem Reads.alike (inner : Scope.inner.Fits grammar ends) (fits : c.Fits grammar ends)
    (h : Reads grammar rule op (ts ++ first) out) (traced : rule.trace ends c s = some s')
    (holds : s.Holds c.edge ts) (after : c.edge.Admits first) (after' : c.edge.Admits second) :
    ∃ out', Reads grammar rule op (ts ++ second) out' ∧ Alike first second (s.Reaches ts s') out out' := by
  generalize whole : ts ++ first = us at h
  induction h generalizing ts s s' c with
  | empty =>
    subst whole
    cases traced
    exact ⟨_, .empty, .some [] (.refl holds.more)⟩
  | @left op us =>
    subst whole
    cases traced
    exact ⟨_, .left, .some op (.refl holds.more)⟩
  | token texts =>
    subst whole
    exact ⟨_, .token texts, alike_takeToken traced holds after after'⟩
  | leaf text k =>
    subst whole
    obtain ⟨sure, same⟩ := Option.ite_none_right_eq_some.1 traced
    cases same
    rw [Bool.and_eq_true, Bool.or_eq_true, Bool.not_eq_true', ← Bool.not_eq_true, List.contains_iff_mem]
      at sure
    refine ⟨_, .leaf text k, alike_takeLeaf holds (fun t _ label found => ?_)
      (sure.1.imp_right fun bars us admits => ?_) after after'⟩
    · have reads := (Option.ite_none_right_eq_some.1 found).1
      exact ⟨(Token.brackets_of_reads reads).trans (bracketsOf_eq_zero sure.2),
        (Token.ends_of_reads reads).trans (isEnd_eq_false sure.2)⟩
    · obtain ⟨t, rest, rfl, fails⟩ := not_reads_of_bars bars admits
      exact ⟨t, rest, rfl, by rw [fails, if_neg Bool.false_ne_true]⟩
  | name k =>
    subst whole
    obtain ⟨sure, same⟩ := Option.ite_none_right_eq_some.1 traced
    cases same
    refine ⟨_, .name k, alike_takeLeaf holds (fun t ht label found => ?_)
      ((Bool.or_eq_true_iff.1 sure).imp_right fun known us admits => ?_) after after'⟩
    · have none := (holds.plain t ht).not_reads (Option.ite_none_right_eq_some.1 found).1
      exact ⟨Token.brackets_eq_zero none, Token.ends_eq_false none⟩
    · obtain ⟨t, rest, rfl, fails, _⟩ := exists_of_isKnown known admits
      exact ⟨t, rest, rfl, by rw [fails, if_neg Bool.false_ne_true]⟩
  | literal =>
    subst whole
    obtain ⟨sure, same⟩ := Option.ite_none_right_eq_some.1 traced
    cases same
    refine ⟨_, .literal, alike_takeLeaf holds (fun t _ label found => ?_)
      ((Bool.or_eq_true_iff.1 sure).imp_right fun known us admits => ?_) after after'⟩
    · have none := fun text (_ : text ∈ punctuation) => Token.not_reads_of_literal found text
      exact ⟨Token.brackets_eq_zero none, Token.ends_eq_false none⟩
    · obtain ⟨t, rest, rfl, _, fails⟩ := exists_of_isKnown known admits
      exact ⟨t, rest, rfl, fails⟩
  | @ref op us out x inner' ih =>
    have depth := holds.depth
    rw [trace] at traced
    split at traced
    · rename_i sure
      cases traced
      -- inside an open bracket nothing needs to be known of what comes after
      obtain ⟨out', reads, alike⟩ : ∃ out', Reads grammar (grammar x) op (ts ++ second) out' ∧
          Alike first second (Stand.Reaches ⟨0, true⟩ ts ⟨0, !ends x⟩) out out' := by
        rw [Bool.or_eq_true, Bool.or_eq_true, decide_eq_true_eq, beq_iff_eq, Bool.and_eq_true] at sure
        rcases sure with open' | level
        · have less : brackets ts < 0 := by
            rcases open' with deep | same
            · omega
            · rw [same, Edge.around] at depth
              omega
          refine ih inner (inner.level x rfl) ⟨holds.plain, holds.closed, ?_, ?_⟩ trivial trivial whole
          · show brackets ts + 0 + 1 ≤ 0
            omega
          · rintro - rfl
            exact Int.lt_irrefl 0 less
        · refine ih fits (fits.level x level.2) ⟨holds.plain, holds.closed, ?_, fun _ => holds.more level.1⟩
            after after' whole
          show brackets ts + 0 + _ ≤ 0
          omega
      refine ⟨out', .ref reads, alike.imp fun rest h => ?_⟩
      obtain ⟨front, split, balanced, more⟩ := h
      refine ⟨front, split, ?_, more⟩
      change (0 : Int) = 0 + brackets front at balanced
      show (s.depth : Int) = s.depth + brackets front
      omega
    · rename_i unsure
      obtain ⟨guarded, same⟩ := Option.ite_none_right_eq_some.1 traced
      cases same
      have level : s.depth = 0 := by
        rw [Bool.or_eq_true, Bool.or_eq_true, decide_eq_true_eq, not_or, not_or] at unsure
        omega
      obtain ⟨⟨_, more⟩, tracedInner, same⟩ := Option.map_eq_some_iff.1 (fits.guarded x guarded)
      cases same
      obtain ⟨out', reads, alike⟩ := ih fits tracedInner
        ⟨holds.plain, holds.closed, by show brackets ts + 0 + _ ≤ 0; omega, fun more => by cases more⟩ after
        after' whole
      refine ⟨out', .ref reads, alike.imp fun rest h => ?_⟩
      rw [level]
      obtain ⟨front, split, balanced, _⟩ := h
      refine ⟨front, split, ?_, fun more => by cases more⟩
      change (0 : Int) = 0 + brackets front at balanced
      show (0 : Int) = s.depth + brackets front
      omega
  | seqFail left ih =>
    obtain ⟨t, tracedLeft, _⟩ := Option.bind_eq_some_iff.1 traced
    obtain ⟨out', reads, alike⟩ := ih fits tracedLeft holds after after' whole
    cases alike
    exact ⟨none, .seqFail reads, .none⟩
  | seq left right ihLeft ihRight =>
    obtain ⟨t, tracedLeft, tracedRight⟩ := Option.bind_eq_some_iff.1 traced
    rw [Stand.normally_eq] at tracedRight
    obtain ⟨_, readsLeft, alike⟩ := ihLeft fits tracedLeft holds after after' whole
    cases alike with
    | some _ reached =>
      obtain ⟨out', readsRight, alike'⟩ :=
        ihRight fits tracedRight (holds.reaches reached) after after' rfl
      exact ⟨_, .seq readsLeft readsRight, (alike'.imp fun _ h => reached.trans h).after _⟩
  | altFirst left ih =>
    obtain ⟨t, tracedLeft, rest⟩ := Option.bind_eq_some_iff.1 traced
    obtain ⟨u, _, both⟩ := Option.bind_eq_some_iff.1 rest
    obtain ⟨depth, _, more⟩ := Stand.of_meet both
    obtain ⟨_, reads, alike⟩ := ih fits tracedLeft holds after after' whole
    cases alike with
    | some _ reached =>
      exact ⟨_, .altFirst reads, .some _ (reached.weaken depth fun h => (more h).1)⟩
  | altSecond left right ihLeft ihRight =>
    obtain ⟨t, tracedLeft, rest⟩ := Option.bind_eq_some_iff.1 traced
    obtain ⟨u, tracedRight, both⟩ := Option.bind_eq_some_iff.1 rest
    obtain ⟨_, depth, more⟩ := Stand.of_meet both
    obtain ⟨_, fails, alike⟩ := ihLeft fits tracedLeft holds after after' whole
    cases alike
    obtain ⟨out', reads, alike⟩ := ihRight fits tracedRight holds after after' whole
    exact ⟨out', .altSecond fails reads, alike.imp fun _ h => h.weaken depth fun m => (more m).2⟩
  | manyStop stop ih =>
    subst whole
    obtain ⟨t, tracedOnce, both, _⟩ := trace_many traced
    obtain ⟨depth, _, more⟩ := Stand.of_meet both
    obtain ⟨_, fails, alike⟩ := ih fits tracedOnce holds after after' rfl
    cases alike
    exact ⟨_, .manyStop fails, .some [] ((Stand.Reaches.refl holds.more).weaken depth fun m => (more m).1)⟩
  | manyStuck once stuck ih =>
    subst whole
    obtain ⟨t, tracedOnce, both, _⟩ := trace_many traced
    obtain ⟨depth, _, more⟩ := Stand.of_meet both
    obtain ⟨_, reads, alike⟩ := ih fits tracedOnce holds after after' rfl
    cases alike with
    | some _ reached =>
      refine ⟨_, .manyStuck reads ?_,
        .some [] ((Stand.Reaches.refl holds.more).weaken depth fun m => (more m).1)⟩
      rw [List.length_append, List.length_append] at stuck ⊢
      omega
  | manyMore once shorter more' ihOnce ihMore =>
    subst whole
    obtain ⟨t, tracedOnce, both, again⟩ := trace_many traced
    obtain ⟨_, depth, more⟩ := Stand.of_meet both
    obtain ⟨_, reads, alike⟩ := ihOnce fits tracedOnce holds after after' rfl
    cases alike with
    | some _ reached =>
      have reached := reached.weaken depth fun m => (more m).2
      obtain ⟨out', readsMore, alike'⟩ := ihMore fits again (holds.reaches reached) after after' rfl
      refine ⟨_, .manyMore reads ?_ readsMore, (alike'.imp fun _ h => reached.trans h).after _⟩
      rw [List.length_append, List.length_append] at shorter ⊢
      omega
  | «unless» fails ih =>
    subst whole
    obtain ⟨t, tracedInner, same⟩ := Option.map_eq_some_iff.1 traced
    cases same
    obtain ⟨_, reads, alike⟩ := ih fits tracedInner holds after after' rfl
    cases alike
    exact ⟨_, .unless reads, .some [] (.refl holds.more)⟩
  | unlessFail found ih =>
    obtain ⟨t, tracedInner, same⟩ := Option.map_eq_some_iff.1 traced
    obtain ⟨_, reads, alike⟩ := ih fits tracedInner holds after after' whole
    cases alike with
    | some _ reached => exact ⟨none, .unlessFail reads, .none⟩
  | node k inner' ih =>
    obtain ⟨out', reads, alike⟩ := ih fits traced holds after after' whole
    exact ⟨_, .node k reads, alike.as _⟩
  | field part inner' ih =>
    obtain ⟨out', reads, alike⟩ := ih fits traced holds after after' whole
    exact ⟨_, .field part reads, alike.as _⟩
  | chainFail base ih =>
    obtain ⟨t, u, tracedBase, _⟩ := trace_chain traced
    obtain ⟨_, fails, alike⟩ := ih fits tracedBase holds after after' whole
    cases alike
    exact ⟨none, .chainFail fails, .none⟩
  | chainStop base stop ihBase ihStop =>
    obtain ⟨t, u, tracedBase, tracedStep, both, _⟩ := trace_chain traced
    obtain ⟨depth, _, more⟩ := Stand.of_meet both
    obtain ⟨_, reads, alike⟩ := ihBase fits tracedBase holds after after' whole
    cases alike with
    | some _ reached =>
      obtain ⟨_, fails, alike'⟩ := ihStop fits tracedStep (holds.reaches reached) after after' rfl
      cases alike'
      exact ⟨_, .chainStop reads fails, .some _ (reached.weaken depth fun m => (more m).1)⟩
  | chainStuck base step stuck ihBase ihStep =>
    obtain ⟨t, u, tracedBase, tracedStep, both, _⟩ := trace_chain traced
    obtain ⟨depth, _, more⟩ := Stand.of_meet both
    obtain ⟨_, reads, alike⟩ := ihBase fits tracedBase holds after after' whole
    cases alike with
    | some _ reached =>
      obtain ⟨_, steps, alike'⟩ := ihStep fits tracedStep (holds.reaches reached) after after' rfl
      cases alike' with
      | some _ further =>
        refine ⟨_, .chainStuck reads steps ?_, .some _ (reached.weaken depth fun m => (more m).1)⟩
        rw [List.length_append, List.length_append] at stuck ⊢
        omega
  | chainMore base step shorter more' ihBase ihStep ihMore =>
    obtain ⟨t, u, tracedBase, tracedStep, both, again⟩ := trace_chain traced
    obtain ⟨_, depth, more⟩ := Stand.of_meet both
    obtain ⟨_, reads, alike⟩ := ihBase fits tracedBase holds after after' whole
    cases alike with
    | some _ reached =>
      obtain ⟨_, steps, alike'⟩ := ihStep fits tracedStep (holds.reaches reached) after after' rfl
      cases alike' with
      | some _ further =>
        have reached := (reached.trans further).weaken depth fun m => (more m).2
        obtain ⟨out', readsMore, alike''⟩ := ihMore fits again (holds.reaches reached) after after' rfl
        refine ⟨_, .chainMore reads steps ?_ readsMore, alike''.imp fun _ h => reached.trans h⟩
        rw [List.length_append, List.length_append] at shorter ⊢
        omega

end Rule

end MonoTap.Java

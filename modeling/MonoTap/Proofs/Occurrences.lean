import MonoTap.Proofs.Emission
import MonoTap.Proofs.Splicing
import Mathlib.Algebra.Order.BigOperators.Group.List
import Mathlib.Algebra.Order.Group.Nat
import Mathlib.Algebra.Ring.Nat
import Mathlib.Data.List.Perm.Subperm

/-!
# Occurrences of a word

Where a word begins in a text. What is put into a text after and before other text brings in no
occurrence but its own if it neither begins nor ends inside the word. Then a text with some ranges
replaced holds the word as often as the parts that are kept and the replacements together.
-/

set_option autoImplicit false

namespace MonoTap.Text

/-- The offsets at which a word begins in a text whose first byte has the offset `origin`. -/
def occurrences (word : List Char) : (origin : Nat) → List Char → List Nat
  | _, [] => []
  | origin, c :: cs =>
    if word.isPrefixOf (c :: cs) then origin :: occurrences word (origin + c.utf8Size) cs
    else occurrences word (origin + c.utf8Size) cs

/-- How often a word begins in a text. -/
def times (word cs : List Char) : Nat :=
  (occurrences word 0 cs).length

variable {word : List Char} {origin : Nat}

theorem length_encodeChars_cons (c : Char) (cs : List Char) :
    (encodeChars (c :: cs)).length = c.utf8Size + (encodeChars cs).length := by
  rw [encodeChars_cons, List.length_append, String.length_utf8EncodeChar]

theorem length_encodeChars_pos {cs : List Char} (h : cs ≠ []) : 0 < (encodeChars cs).length :=
  Nat.pos_of_ne_zero fun none => h (encodeChars_eq_nil none)

theorem length_occurrences (word : List Char) (origin : Nat) (cs : List Char) :
    (occurrences word origin cs).length = times word cs := by
  have same : ∀ (ds : List Char) (a b : Nat),
      (occurrences word a ds).length = (occurrences word b ds).length := by
    intro ds
    induction ds with
    | nil => exact fun a b => rfl
    | cons d ds ih =>
      intro a b
      have later := ih (a + d.utf8Size) (b + d.utf8Size)
      rw [occurrences, occurrences]
      split
      · rw [List.length_cons, List.length_cons, later]
      · exact later
  exact same cs origin 0

/-- An occurrence cuts a text into what stands before it, the word, and the rest. -/
theorem mem_occurrences (full : word ≠ []) {p : Nat} {cs : List Char} :
    p ∈ occurrences word origin cs ↔
      ∃ front back, cs = front ++ (word ++ back) ∧ p = origin + (encodeChars front).length := by
  induction cs generalizing origin with
  | nil =>
    refine ⟨fun h => (by cases h), fun ⟨front, back, split, _⟩ => ?_⟩
    have none := List.append_eq_nil_iff.1 (List.append_eq_nil_iff.1 split.symm).2
    exact (full none.1).elim
  | cons c cs ih =>
    have here : word.isPrefixOf (c :: cs) = true ↔ ∃ back, c :: cs = word ++ back := by
      rw [List.isPrefixOf_iff_prefix]
      exact exists_congr fun _ => eq_comm
    have later : p ∈ occurrences word (origin + c.utf8Size) cs ↔ ∃ front back,
        c :: cs = c :: front ++ (word ++ back) ∧
          p = origin + (encodeChars (c :: front)).length := by
      rw [ih]
      refine exists_congr fun front => exists_congr fun back => and_congr ?_ ?_
      · rw [List.cons_append, List.cons.injEq, eq_self, true_and]
      · rw [length_encodeChars_cons, Nat.add_assoc]
    have cases : p ∈ occurrences word origin (c :: cs) ↔
        (word.isPrefixOf (c :: cs) = true ∧ p = origin) ∨
          p ∈ occurrences word (origin + c.utf8Size) cs := by
      rw [occurrences]
      split
      · rename_i begins
        rw [List.mem_cons, begins, eq_self, true_and]
      · rename_i other
        rw [Bool.eq_false_iff.2 other]
        simp
    rw [cases, here, later]
    constructor
    · rintro (⟨⟨back, split⟩, rfl⟩ | ⟨front, back, split, rfl⟩)
      · exact ⟨[], back, split, rfl⟩
      · exact ⟨c :: front, back, split, rfl⟩
    · rintro ⟨front, back, split, rfl⟩
      cases front with
      | nil => exact Or.inl ⟨⟨back, split⟩, rfl⟩
      | cons d front =>
        cases (List.cons.inj split).1
        exact Or.inr ⟨front, back, split, rfl⟩

theorem bounds_of_mem_occurrences (full : word ≠ []) {p : Nat} {cs : List Char}
    (h : p ∈ occurrences word origin cs) :
    origin ≤ p ∧ p + (encodeChars word).length ≤ origin + (encodeChars cs).length := by
  obtain ⟨front, back, rfl, rfl⟩ := (mem_occurrences full).1 h
  simp only [encodeChars_append, List.length_append]
  omega

/-- The occurrences in two parts of a text are occurrences in the text. -/
theorem occurrences_append_sublist (word : List Char) (origin : Nat) (cs ds : List Char) :
    (occurrences word origin cs ++
      occurrences word (origin + (encodeChars cs).length) ds).Sublist
        (occurrences word origin (cs ++ ds)) := by
  induction cs generalizing origin with
  | nil => exact List.Sublist.refl _
  | cons c cs ih =>
    have ih := ih (origin + c.utf8Size)
    rw [length_encodeChars_cons, ← Nat.add_assoc, List.cons_append, occurrences, occurrences]
    split
    · rename_i begins
      have longer : word.isPrefixOf (c :: (cs ++ ds)) = true := by
        rw [List.isPrefixOf_iff_prefix] at begins ⊢
        exact begins.trans (List.prefix_append (c :: cs) ds)
      rw [longer, if_pos rfl]
      exact ih.cons_cons origin
    · split
      · exact ih.cons origin
      · exact ih

theorem times_append_le (word cs ds : List Char) :
    times word cs + times word ds ≤ times word (cs ++ ds) := by
  have both := (occurrences_append_sublist word 0 cs ds).length_le
  rwa [List.length_append, length_occurrences, length_occurrences, length_occurrences] at both

/-- A part of a text holds a word at most as often as the text. -/
theorem times_le_of_infix (word : List Char) {cs ds : List Char} (h : cs <:+: ds) :
    times word cs ≤ times word ds := by
  obtain ⟨front, back, rfl⟩ := h
  have outer := times_append_le word (front ++ cs) back
  have inner := times_append_le word front cs
  omega

/-! ### Text that begins or ends outside a word -/

/-- Whether no end of a word is the beginning of a text. -/
def Detached (word cs : List Char) : Prop :=
  ∀ back, back <:+ word → back ≠ [] → ¬ back <+: cs

theorem detached_cons {c : Char} (other : c ∉ word) (cs : List Char) : Detached word (c :: cs) := by
  intro back suffix full begins
  cases back with
  | nil => exact full rfl
  | cons d back =>
    obtain ⟨rest, split⟩ := begins
    cases (List.cons.inj split).1
    exact other (suffix.subset List.mem_cons_self)

/-- No occurrence reaches into a text that does not begin with an end of the word. -/
theorem times_append {cs ds : List Char} (h : Detached word ds) :
    times word (cs ++ ds) = times word cs + times word ds := by
  have begins (back : List Char) (suffix : back <:+ word) :
      ∀ fs : List Char, fs ≠ [] → back.isPrefixOf (fs ++ ds) = back.isPrefixOf fs := by
    intro fs
    induction fs generalizing back with
    | nil => exact fun full => (full rfl).elim
    | cons f fs ih =>
      intro _
      cases back with
      | nil => rfl
      | cons b back =>
        have shorter : back <:+ word := (List.suffix_cons b back).trans suffix
        rw [List.cons_append, List.isPrefixOf_cons_cons, List.isPrefixOf_cons_cons]
        congr 1
        cases fs with
        | nil =>
          cases back with
          | nil => rfl
          | cons d back =>
            have apart := h (d :: back) shorter (List.cons_ne_nil d back)
            rw [← List.isPrefixOf_iff_prefix, Bool.not_eq_true] at apart
            exact apart
        | cons g fs => exact ih back shorter (List.cons_ne_nil g fs)
  induction cs with
  | nil => simp [times, occurrences]
  | cons c cs ih =>
    have same := begins word (List.suffix_refl word) (c :: cs) (List.cons_ne_nil c cs)
    have first (ds : List Char) : times word (c :: ds) =
        (if word.isPrefixOf (c :: ds) = true then 1 else 0) + times word ds := by
      rw [times, occurrences]
      split
      · rw [List.length_cons, length_occurrences, Nat.add_comm]
      · rw [length_occurrences, Nat.zero_add]
    rw [List.cons_append, first, first, ih, ← List.cons_append, same, Nat.add_assoc]

theorem times_cons {c : Char} (other : c ∉ word) (full : word ≠ []) (cs : List Char) :
    times word (c :: cs) = times word cs := by
  have apart : ¬ word <+: c :: cs := detached_cons other cs word (List.suffix_refl word) full
  rw [← List.isPrefixOf_iff_prefix] at apart
  rw [times, occurrences]
  rw [if_neg apart, length_occurrences]

theorem times_append_cons {c : Char} (other : c ∉ word) (full : word ≠ []) (cs ds : List Char) :
    times word (cs ++ c :: ds) = times word cs + times word ds := by
  rw [times_append (detached_cons other ds), times_cons other full]

/-- Characters that are not in a word do not matter at the beginning of a text. -/
theorem times_append_of_apart {cs : List Char} (apart : ∀ c ∈ cs, c ∉ word) (full : word ≠ [])
    (ds : List Char) : times word (cs ++ ds) = times word ds := by
  induction cs with
  | nil => rfl
  | cons c cs ih =>
    rw [List.cons_append, times_cons (apart c List.mem_cons_self) full,
      ih fun d hd => apart d (List.mem_cons_of_mem c hd)]

/-- A text that brings only its own occurrences of a word into every other text. -/
def Sealed (word cs : List Char) : Prop :=
  ∀ front back, times word (front ++ (cs ++ back)) =
    times word front + times word cs + times word back

theorem times_nil (word : List Char) : times word [] = 0 := rfl

theorem Sealed.append {cs ds : List Char} (first : Sealed word cs) (second : Sealed word ds) :
    Sealed word (cs ++ ds) := by
  intro front back
  have outer := first front (ds ++ back)
  have inner := second [] back
  have whole := first [] ds
  simp only [List.nil_append, times_nil] at inner whole
  rw [List.append_assoc, outer, inner, whole]
  omega

/-- A text that begins and ends outside a word is sealed. -/
theorem sealed_concat {cs : List Char} {c : Char} (begins : ∀ back, Detached word (cs ++ back))
    (other : c ∉ word) (full : word ≠ []) : Sealed word (cs ++ [c]) := by
  intro front back
  have split : cs ++ [c] ++ back = cs ++ c :: back := by
    rw [List.append_assoc, List.singleton_append]
  rw [split, times_append (begins (c :: back)), times_append_cons other full,
    times_append_cons other full, times_nil]
  omega

theorem sealed_of_apart {cs : List Char} (apart : ∀ c ∈ cs, c ∉ word) (some : cs ≠ [])
    (full : word ≠ []) : Sealed word cs := by
  intro front back
  have own := times_append_of_apart apart full []
  rw [List.append_nil, times_nil] at own
  cases cs with
  | nil => exact (some rfl).elim
  | cons c cs =>
    have rest := times_append_of_apart (fun d hd => apart d (List.mem_cons_of_mem c hd)) full back
    rw [own, List.cons_append, times_append_cons (apart c List.mem_cons_self) full, rest]
    omega

/-! ### Lines -/

theorem times_joinWith {sep : List Char} (apart : ∀ c ∈ sep, c ∉ word) (some : sep ≠ [])
    (full : word ≠ []) (pieces : List (List Char)) :
    times word (joinWith sep pieces) = (pieces.map (times word)).sum := by
  fun_induction joinWith sep pieces with
  | case1 => rfl
  | case2 piece => simp
  | case3 piece pieces _ ih =>
    have own := times_append_of_apart apart full []
    rw [List.append_nil, times_nil] at own
    rw [List.append_assoc, sealed_of_apart apart some full, ih, own, List.map_cons, List.sum_cons]
    rfl

theorem sum_times_splitAt {sep : Char} (other : sep ∉ word) (full : word ≠ []) (cs : List Char) :
    ((splitAt sep cs).map (times word)).sum = times word cs := by
  have apart : ∀ c ∈ [sep], c ∉ word := fun c hc => List.mem_singleton.1 hc ▸ other
  rw [← times_joinWith apart (List.cons_ne_nil sep []) full, joinWith_splitAt]

theorem infix_trim (cs : List Char) : trim cs <:+: cs :=
  (prefix_trimRight _).isInfix.trans (List.dropWhile_suffix isBlank).isInfix

/-! ### Occurrences that are left -/

/-- How many occurrences of a word lie between two offsets of a text, other than those at the given
offsets. -/
def spare (word text : List Char) (used : List Nat) (lo hi : Nat) : Nat :=
  (occurrences word 0 text).countP fun p =>
    lo ≤ p && p + (encodeChars word).length ≤ hi && !used.contains p

section

variable {text : List Char} {used : List Nat} {lo hi : Nat}

theorem countP_add_le {α : Type} {p q r : α → Bool} (first : ∀ a, p a = true → r a = true)
    (second : ∀ a, q a = true → r a = true) (apart : ∀ a, p a = true → q a = false)
    (as : List α) : as.countP p + as.countP q ≤ as.countP r := by
  induction as with
  | nil => exact Nat.le_refl _
  | cons a as ih =>
    have here : (if p a = true then 1 else 0) + (if q a = true then 1 else 0) ≤
        if r a = true then 1 else 0 := by
      cases hp : p a with
      | true => simp [first a hp, apart a hp]
      | false =>
        cases hq : q a with
        | true => simp [second a hq]
        | false => simp
    rw [List.countP_cons, List.countP_cons, List.countP_cons]
    omega

/-- Of two ranges side by side, both lie in a third one. -/
theorem spare_add_le {a b c d : Nat} (full : word ≠ []) (first : lo ≤ a) (between : b ≤ c)
    (last : d ≤ hi) (left : a ≤ b) (right : c ≤ d) :
    spare word text used a b + spare word text used c d ≤ spare word text used lo hi := by
  have width := length_encodeChars_pos full
  apply countP_add_le
  all_goals
    intro p
    simp only [Bool.and_eq_true, Bool.and_eq_false_iff, decide_eq_true_eq, decide_eq_false_iff_not]
  · exact fun ⟨⟨low, high⟩, free⟩ => ⟨⟨by omega, by omega⟩, free⟩
  · exact fun ⟨⟨low, high⟩, free⟩ => ⟨⟨by omega, by omega⟩, free⟩
  · exact fun ⟨⟨low, high⟩, free⟩ => Or.inl (by omega)

theorem spare_mono {a b : Nat} (first : lo ≤ a) (last : b ≤ hi) :
    spare word text used a b ≤ spare word text used lo hi := by
  refine List.countP_mono_left fun p _ => ?_
  simp only [Bool.and_eq_true, decide_eq_true_eq]
  exact fun ⟨⟨low, high⟩, free⟩ => ⟨⟨by omega, by omega⟩, free⟩

/-- Ranges one after the other lie in a range around them. -/
theorem sum_spare_le {spans : List (Nat × Nat)} (full : word ≠ [])
    (inside : ∀ s ∈ spans, lo ≤ s.1 ∧ s.1 ≤ s.2 ∧ s.2 ≤ hi)
    (ordered : spans.Pairwise fun s t => s.2 ≤ t.1) :
    (spans.map fun s => spare word text used s.1 s.2).sum ≤ spare word text used lo hi := by
  induction spans generalizing lo with
  | nil => exact Nat.zero_le _
  | cons s spans ih =>
    obtain ⟨later, ordered⟩ := List.pairwise_cons.1 ordered
    obtain ⟨first, own, last⟩ := inside s List.mem_cons_self
    have rest := @ih s.2 (fun t ht =>
      ⟨later t ht, (inside t (List.mem_cons_of_mem s ht)).2⟩) ordered
    have both : spare word text used s.1 s.2 + spare word text used s.2 hi ≤
        spare word text used lo hi :=
      spare_add_le full first (Nat.le_refl _) (Nat.le_refl _) own last
    rw [List.map_cons, List.sum_cons]
    omega

/-- A part of a text that holds no used occurrence. -/
theorem times_le_spare (full : word ≠ []) {front middle back : List Char}
    (split : text = front ++ (middle ++ back)) (start : lo = (encodeChars front).length)
    (stop : hi = lo + (encodeChars middle).length)
    (free : ∀ p ∈ used, lo ≤ p → hi < p + (encodeChars word).length) :
    times word middle ≤ spare word text used lo hi := by
  have rest := (occurrences_append_sublist word lo middle back)
  have whole := (occurrences_append_sublist word 0 front (middle ++ back))
  rw [Nat.zero_add, ← start, ← split] at whole
  have sub : (occurrences word lo middle).Sublist (occurrences word 0 text) :=
    ((List.sublist_append_left _ _).trans rest).trans
      ((List.sublist_append_right _ _).trans whole)
  have all : (occurrences word lo middle).countP (fun p =>
      lo ≤ p && p + (encodeChars word).length ≤ hi && !used.contains p) =
        (occurrences word lo middle).length := by
    refine List.countP_eq_length.2 fun p hp => ?_
    obtain ⟨low, high⟩ := bounds_of_mem_occurrences full hp
    simp only [Bool.and_eq_true, decide_eq_true_eq, Bool.not_eq_true', List.contains_eq_mem,
      decide_eq_false_iff_not]
    refine ⟨⟨low, by omega⟩, fun mem => ?_⟩
    have := free p mem low
    omega
  rw [← length_occurrences word lo middle, ← all]
  exact sub.countP_le

/-- The occurrences in a text other than some of them. -/
theorem spare_add_length_le (distinct : used.Nodup)
    (found : ∀ p ∈ used, p ∈ occurrences word 0 text) :
    spare word text used lo hi + used.length ≤ times word text := by
  have sub : used.length ≤ (occurrences word 0 text).countP fun p => used.contains p := by
    rw [List.countP_eq_length_filter]
    refine (List.subperm_of_subset distinct fun p hp => ?_).length_le
    exact List.mem_filter.2 ⟨found p hp, List.contains_iff_mem.2 hp⟩
  have other : spare word text used lo hi ≤
      (occurrences word 0 text).countP fun p => !used.contains p := by
    refine List.countP_mono_left fun p _ h => ?_
    rw [Bool.and_eq_true] at h
    exact h.2
  have both : (occurrences word 0 text).length =
      (occurrences word 0 text).countP (fun p => used.contains p) +
        (occurrences word 0 text).countP fun p => !used.contains p := by
    simpa using @List.length_eq_countP_add_countP Nat (used.contains ·) (occurrences word 0 text)
  rw [times]
  omega

/-- An edit that puts in a sealed text, which holds the word at most as often as what it replaces holds
it beside the used occurrences. -/
structure Edit.Frugal (word text : List Char) (used : List Nat) (e : Edit) : Prop where
  closed : Sealed word e.replacement.toList
  times : ∀ start stop : Nat, e.start = start → e.stop = stop →
    times word e.replacement.toList ≤ spare word text used start stop

/-- If each used occurrence in a part of a text lies in one of some edits, the part holds the word
afterwards at most as often as it did before, beside the used occurrences. -/
theorem Spliced.times_le (full : word ≠ []) {es : List Edit} {front cs back ds : List Char}
    (h : Spliced lo es (encodeChars cs) (encodeChars ds)) (fits : ∀ e ∈ es, e.Fits lo cs)
    (split : text = front ++ (cs ++ back)) (start : lo = (encodeChars front).length)
    (stop : hi = lo + (encodeChars cs).length) (frugal : ∀ e ∈ es, e.Frugal word text used)
    (covered : ∀ p ∈ used, lo ≤ p → p + (encodeChars word).length ≤ hi →
      ∃ e ∈ es, e.start ≤ p ∧ (p : Int) + (encodeChars word).length ≤ e.stop) :
    times word ds ≤ spare word text used lo hi := by
  have width := length_encodeChars_pos full
  induction es generalizing lo front cs ds with
  | nil =>
    cases encodeChars_injective h.eq_of_nil
    refine times_le_spare full split start stop fun p hp low => ?_
    by_contra high
    obtain ⟨e, he, _⟩ := covered p hp low (Nat.le_of_not_lt high)
    cases he
  | cons e es ih =>
    obtain ⟨kept, old, rest, result, rfl, same, first, last, more, later⟩ := h.exists_cut fits
    obtain ⟨rs, rfl⟩ := more.exists_chars later
    rw [← encodeChars_append] at same
    cases encodeChars_injective same
    obtain ⟨closed, put⟩ := frugal e List.mem_cons_self
    simp only [encodeChars_append, List.length_append] at stop
    have here : text = front ++ (kept ++ (old ++ (rest ++ back))) := by
      rw [split, List.append_assoc, List.append_assoc]
    have before : times word kept ≤ spare word text used lo (lo + (encodeChars kept).length) := by
      refine times_le_spare full here start rfl fun p hp low => ?_
      by_contra high
      obtain ⟨f, hf, atStart, atStop⟩ := covered p hp low (by omega)
      rcases List.mem_cons.1 hf with rfl | hf
      · omega
      · have := more.origin_le hf
        omega
    have own := put _ _ first last
    have after : times word rs ≤ spare word text used
        (lo + (encodeChars kept).length + (encodeChars old).length) hi := by
      have there : text = front ++ (kept ++ old) ++ (rest ++ back) := by
        rw [here, List.append_assoc, List.append_assoc]
      refine ih more later there ?_ ?_ (fun f hf => frugal f (List.mem_cons_of_mem e hf))
        fun p hp low high => ?_
      · rw [encodeChars_append, encodeChars_append, List.length_append, List.length_append, start]
        omega
      · omega
      · obtain ⟨f, hf, atStart, atStop⟩ := covered p hp (by omega) high
        rcases List.mem_cons.1 hf with rfl | hf
        · omega
        · exact ⟨f, hf, atStart, atStop⟩
    have left : spare word text used lo (lo + (encodeChars kept).length) +
        spare word text used (lo + (encodeChars kept).length)
          (lo + (encodeChars kept).length + (encodeChars old).length) ≤
        spare word text used lo (lo + (encodeChars kept).length + (encodeChars old).length) :=
      spare_add_le full (Nat.le_refl _) (Nat.le_refl _) (Nat.le_refl _) (by omega) (by omega)
    have right : spare word text used lo
          (lo + (encodeChars kept).length + (encodeChars old).length) +
        spare word text used (lo + (encodeChars kept).length + (encodeChars old).length) hi ≤
        spare word text used lo hi :=
      spare_add_le full (Nat.le_refl _) (Nat.le_refl _) (Nat.le_refl _) (by omega) (by omega)
    rw [List.append_assoc, closed]
    omega

end

end MonoTap.Text

namespace MonoTap.Listener

open Text (splitAt times trim trimRight)

/-- Moving a line brings in no occurrence of a word that the indentation does not hold. -/
theorem times_moveLine_le {word start : List Char} (apart : ∀ c ∈ start, c ∉ word)
    (full : word ≠ []) (indent : Nat) (line : List Char) :
    times word (moveLine start indent line) ≤ times word line := by
  have trimmed := Text.times_le_of_infix word (Text.prefix_trimRight line).isInfix
  rw [moveLine]
  split
  · exact Nat.zero_le _
  · rw [Text.times_append_of_apart apart full, dropIndent_eq_drop]
    exact Nat.le_trans (Text.times_le_of_infix word (List.drop_suffix _ _).isInfix) trimmed

theorem sum_times_reindent_le {word start : List Char} (apart : ∀ c ∈ start, c ∉ word)
    (other : '\n' ∉ word) (full : word ≠ []) (indent : Nat) (text : List Char) :
    ((reindent start indent text).map (times word)).sum ≤ times word text := by
  have trimmed := Text.times_le_of_infix word (Text.prefix_trimRight text).isInfix
  rw [← Text.sum_times_splitAt other full] at trimmed
  rw [reindent]
  split
  · exact Nat.zero_le _
  · rename_i first rest split
    have head := Text.times_le_of_infix word (Text.infix_trim first)
    have tail : ((rest.map (moveLine start indent)).map (times word)).sum ≤
        (rest.map (times word)).sum := by
      rw [List.map_map]
      exact List.sum_le_sum fun line _ => times_moveLine_le apart full indent line
    rw [split, List.map_cons, List.sum_cons] at trimmed
    rw [List.map_cons, List.sum_cons, Text.times_append_of_apart apart full]
    omega

end MonoTap.Listener

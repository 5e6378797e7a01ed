import Mathlib
import MonoTap.Lane.Registry

/-!
# The choice of a lane

After any registrations a registry holds the last lane registered under each id, in the order in which the
ids first came. The choice goes through them once and keeps the best lane so far. So of all lanes that take
part it comes to the one with the greatest score, and of several such lanes to the first.
-/

set_option autoImplicit false

namespace MonoTap.Document.Keyed

variable {α : Type}

theorem mem_keys_of_mem {entry : String × α} {entries : List (String × α)} (h : entry ∈ entries) :
    entry.1 ∈ entries.map Prod.fst :=
  List.mem_map.2 ⟨entry, h, rfl⟩

/-- A value under another key stays, and that under the key itself gives way. -/
theorem mem_put {key k : String} {value v : α} {entries : List (String × α)}
    (distinct : (entries.map Prod.fst).Nodup) :
    (k, v) ∈ put key value entries ↔ k = key ∧ v = value ∨ k ≠ key ∧ (k, v) ∈ entries := by
  induction entries with
  | nil => simp [put]
  | cons first entries ih =>
    obtain ⟨k', v'⟩ := first
    rw [List.map_cons, List.nodup_cons] at distinct
    by_cases same : k' = key
    · subst same
      have fresh : (k, v) ∈ entries → k ≠ k' := by
        intro mem same
        have known := mem_keys_of_mem mem
        rw [same] at known
        exact distinct.1 known
      simp only [put, beq_self_eq_true, ↓reduceIte, List.mem_cons, Prod.mk.injEq]
      constructor
      · rintro (here | mem)
        · exact Or.inl here
        · exact Or.inr ⟨fresh mem, Or.inr mem⟩
      · rintro (here | ⟨other, here | mem⟩)
        · exact Or.inl here
        · exact absurd here.1 other
        · exact Or.inr mem
    · simp only [put, beq_iff_eq, same, ↓reduceIte, List.mem_cons, Prod.mk.injEq, ih distinct.2]
      constructor
      · rintro (here | here | ⟨other, mem⟩)
        · exact Or.inr ⟨here.1 ▸ same, Or.inl here⟩
        · exact Or.inl here
        · exact Or.inr ⟨other, Or.inr mem⟩
      · rintro (here | ⟨other, here | mem⟩)
        · exact Or.inr (Or.inl here)
        · exact Or.inl here
        · exact Or.inr (Or.inr ⟨other, mem⟩)

end MonoTap.Document.Keyed

namespace MonoTap.Lane

open Document (Keyed.put Keyed.keys_put Keyed.mem_keys_of_mem Keyed.mem_put Value)
open Number (Binary64)

/-! ### Scores -/

/-- The size of a number that is no NaN, in units of the least positive floating-point number. -/
def Scalar.size : Scalar → WithBot (WithTop Int)
  | .whole n => ((n * (Binary64.unit : Int) : Int) : WithTop Int)
  | .real (.finite negative mantissa exponent) =>
    ((Binary64.units (.finite negative mantissa exponent) : Int) : WithTop Int)
  | .real (.infinite false) => ⊤
  | .real (.infinite true) => ⊥
  | .real .nan => ⊥

theorem coe_lt_top (n : Int) : ((n : WithTop Int) : WithBot (WithTop Int)) < ⊤ :=
  WithBot.coe_lt_coe.2 (WithTop.coe_lt_top n)

theorem Scalar.size_zero : (Scalar.real .zero).size = 0 := by
  have none : Binary64.units .zero = 0 := by
    simp [Binary64.units, Binary64.zero, Binary64.magnitude]
  show (((Binary64.units .zero : Int) : WithTop Int) : WithBot (WithTop Int)) = 0
  rw [none]
  rfl

theorem unit_pos : (0 : Int) < Binary64.unit := by
  have := Number.twoTo_pos 1074
  simp only [Binary64.unit]
  omega

/-- Numbers are compared by their sizes, without rounding. -/
theorem Scalar.gt_iff {x y : Scalar} (left : x ≠ .real .nan) (right : y ≠ .real .nan) :
    x.gt y = true ↔ y.size < x.size := by
  cases x with
  | whole m =>
    cases y with
    | whole n =>
      simp only [gt, size, decide_eq_true_eq, WithBot.coe_lt_coe, WithTop.coe_lt_coe]
      exact (Int.mul_lt_mul_right unit_pos).symm
    | real y =>
      cases y with
      | finite negative mantissa exponent =>
        simp only [gt, size, decide_eq_true_eq, WithBot.coe_lt_coe, WithTop.coe_lt_coe]
      | infinite negative =>
        cases negative with
        | false => exact iff_of_false Bool.false_ne_true not_top_lt
        | true => exact iff_of_true rfl (WithBot.bot_lt_coe _)
      | nan => exact absurd rfl right
  | real x =>
    cases y with
    | whole n =>
      cases x with
      | finite negative mantissa exponent =>
        simp only [gt, size, decide_eq_true_eq, WithBot.coe_lt_coe, WithTop.coe_lt_coe]
      | infinite negative =>
        cases negative with
        | false => exact iff_of_true rfl (coe_lt_top _)
        | true => exact iff_of_false Bool.false_ne_true not_lt_bot
      | nan => exact absurd rfl left
    | real y =>
      cases x with
      | nan => exact absurd rfl left
      | infinite negative =>
        cases y with
        | nan => exact absurd rfl right
        | infinite negative' =>
          cases negative with
          | false =>
            cases negative' with
            | false => exact iff_of_false Bool.false_ne_true (lt_irrefl _)
            | true => exact iff_of_true rfl bot_lt_top
          | true =>
            cases negative' with
            | false => exact iff_of_false Bool.false_ne_true not_top_lt
            | true => exact iff_of_false Bool.false_ne_true (lt_irrefl _)
        | finite =>
          cases negative with
          | false => exact iff_of_true rfl (coe_lt_top _)
          | true => exact iff_of_false Bool.false_ne_true not_lt_bot
      | finite =>
        cases y with
        | nan => exact absurd rfl right
        | infinite negative =>
          cases negative with
          | false => exact iff_of_false Bool.false_ne_true not_top_lt
          | true => exact iff_of_true rfl (WithBot.bot_lt_coe _)
        | finite =>
          simp only [gt, size, Binary64.lt, decide_eq_true_eq, WithBot.coe_lt_coe, WithTop.coe_lt_coe]

/-! ### The best lane so far -/

/-- Whether a lane takes part in the choice for a request, and with which score: it is not deprecated, and it
can tell its score. -/
def Scores (lane : Lane) (source target : Value) (score : Scalar) : Prop :=
  lane.deprecated = false ∧ lane.applicability source target = some score

variable {source target : Value} {lane other : Lane} {score s : Scalar} {lanes : List Lane}

theorem score?_eq_some_iff : lane.score? source target = some score ↔ lane.Scores source target score := by
  rw [score?, Scores]
  cases lane.deprecated <;> simp

theorem score?_eq_none (h : ∀ s, ¬ lane.Scores source target s) : lane.score? source target = none := by
  cases scored : lane.score? source target with
  | none => rfl
  | some s => exact absurd (score?_eq_some_iff.1 scored) (h s)

theorem Scores.unique (h : lane.Scores source target score) (h' : lane.Scores source target s) :
    score = s :=
  Option.some.inj (h.2.symm.trans h'.2)

/-- What the choice has come to after some lanes: the first of those with the greatest score, if that is
above zero. -/
inductive Leads (source target : Value) (lanes : List Lane) : Option Lane × Scalar → Prop
  | none (low : ∀ lane ∈ lanes, ∀ s, lane.Scores source target s → s.size ≤ 0) :
      Leads source target lanes (none, .real .zero)
  | some {before after : List Lane} {lane : Lane} {score : Scalar}
      (split : lanes = before ++ lane :: after) (scores : lane.Scores source target score)
      (number : score ≠ .real .nan) (high : 0 < score.size)
      (less : ∀ other ∈ before, ∀ s, other.Scores source target s → s.size < score.size)
      (most : ∀ other ∈ after, ∀ s, other.Scores source target s → s.size ≤ score.size) :
      Leads source target lanes (some lane, score)

/-- One more lane. -/
theorem Leads.better {best : Option Lane × Scalar} (h : Leads source target lanes best)
    (numbers : ∀ s, lane.Scores source target s → s ≠ .real .nan) :
    Leads source target (lanes ++ [lane]) (better source target best lane) := by
  by_cases scored : ∃ s, lane.Scores source target s
  · obtain ⟨s, scores⟩ := scored
    have own : ∀ t, lane.Scores source target t → t = s := fun t ht => ht.unique scores
    rw [Lane.better, score?_eq_some_iff.2 scores]
    dsimp only
    cases h with
    | none low =>
      have greater := Scalar.gt_iff (y := .real .zero) (numbers s scores) (by decide)
      rw [Scalar.size_zero] at greater
      by_cases high : 0 < s.size
      · rw [if_pos (greater.2 high)]
        refine .some rfl scores (numbers s scores) high ?_ (by simp)
        intro other mem t ht
        exact lt_of_le_of_lt (low other mem t ht) high
      · rw [if_neg fun gt => high (greater.1 gt)]
        apply Leads.none
        intro other mem t ht
        rcases List.mem_append.1 mem with mem | mem
        · exact low other mem t ht
        · rw [List.mem_singleton.1 mem] at ht
          rw [own t ht]
          exact not_lt.1 high
    | @some before after leader best split leads number high less most =>
      have greater := Scalar.gt_iff (numbers s scores) number
      by_cases beaten : best.size < s.size
      · rw [if_pos (greater.2 beaten)]
        refine .some rfl scores (numbers s scores) (high.trans beaten) ?_ (by simp)
        intro other mem t ht
        rw [split, List.mem_append, List.mem_cons] at mem
        rcases mem with mem | rfl | mem
        · exact (less other mem t ht).trans beaten
        · rw [ht.unique leads]
          exact beaten
        · exact lt_of_le_of_lt (most other mem t ht) beaten
      -- a tie leaves the lead to the earlier lane
      · rw [if_neg fun gt => beaten (greater.1 gt)]
        have longer : lanes ++ [lane] = before ++ leader :: (after ++ [lane]) := by
          rw [split, List.append_assoc, List.cons_append]
        refine .some longer leads number high less ?_
        intro other mem t ht
        rcases List.mem_append.1 mem with mem | mem
        · exact most other mem t ht
        · rw [List.mem_singleton.1 mem] at ht
          rw [own t ht]
          exact not_lt.1 beaten
  · have silent : ∀ s, ¬ lane.Scores source target s := fun s hs => scored ⟨s, hs⟩
    rw [Lane.better, score?_eq_none silent]
    have further {ls : List Lane} {P : Scalar → Prop}
        (each : ∀ other ∈ ls, ∀ s, other.Scores source target s → P s) :
        ∀ other ∈ ls ++ [lane], ∀ s, other.Scores source target s → P s := by
      intro other mem t ht
      rcases List.mem_append.1 mem with mem | mem
      · exact each other mem t ht
      · rw [List.mem_singleton.1 mem] at ht
        exact absurd ht (silent t)
    cases h with
    | none low => exact .none (further low)
    | @some before after leader best split leads number high less most =>
      have longer : lanes ++ [lane] = before ++ leader :: (after ++ [lane]) := by
        rw [split, List.append_assoc, List.cons_append]
      exact .some longer leads number high less (further most)

/-- All lanes, one after the other. -/
theorem leads_foldl {done : List Lane} {best : Option Lane × Scalar} (h : Leads source target done best)
    (numbers : ∀ lane ∈ lanes, ∀ s, lane.Scores source target s → s ≠ .real .nan) :
    Leads source target (done ++ lanes) (lanes.foldl (better source target) best) := by
  induction lanes generalizing done best with
  | nil =>
    rw [List.append_nil]
    exact h
  | cons lane lanes ih =>
    have next := ih (h.better (numbers lane List.mem_cons_self))
      fun other mem => numbers other (List.mem_cons_of_mem lane mem)
    rw [List.append_assoc] at next
    exact next

/-! ### Registrations -/

/-- The registry after some registrations, one after the other. -/
def Registry.after (history : List Lane) : Registry :=
  history.foldl Registry.register .empty

/-- Whether a lane is the last one registered under its id. -/
def Registered (history : List Lane) (lane : Lane) : Prop :=
  ∃ earlier later, history = earlier ++ lane :: later ∧ ∀ l ∈ later, l.id ≠ lane.id

/-- The number of registrations before the first one under the id of a lane. -/
def place (history : List Lane) (lane : Lane) : Nat :=
  (history.map Lane.id).idxOf lane.id

variable {history : List Lane} {r : Registry}

theorem registered_concat : Registered (history ++ [lane]) other ↔
    other = lane ∨ other.id ≠ lane.id ∧ Registered history other := by
  constructor
  · rintro ⟨earlier, later, split, last⟩
    rcases List.eq_nil_or_concat later with rfl | ⟨later, final, rfl⟩
    · obtain ⟨-, same⟩ := List.append_inj' split rfl
      exact Or.inl (List.cons.inj same).1.symm
    · rw [List.concat_eq_append] at split last
      rw [← List.cons_append, ← List.append_assoc] at split
      obtain ⟨whole, same⟩ := List.append_inj' split rfl
      obtain rfl : lane = final := (List.cons.inj same).1
      refine Or.inr ⟨(last lane (by simp)).symm, earlier, later, whole, ?_⟩
      intro l mem
      exact last l (List.mem_append_left _ mem)
  · rintro (rfl | ⟨differs, earlier, later, rfl, last⟩)
    · exact ⟨history, [], rfl, by simp⟩
    · refine ⟨earlier, later ++ [lane], by simp, ?_⟩
      intro l mem
      rcases List.mem_append.1 mem with mem | mem
      · exact last l mem
      · rw [List.mem_singleton.1 mem]
        exact differs.symm

theorem Registered.id_mem (h : Registered history lane) : lane.id ∈ history.map Lane.id := by
  obtain ⟨earlier, later, rfl, -⟩ := h
  simp

/-- What a registry holds after some registrations. -/
structure Registry.Holds (r : Registry) (history : List Lane) : Prop where
  keyed : ∀ entry ∈ r.lanes, entry.1 = entry.2.id
  registered : ∀ lane, (lane.id, lane) ∈ r.lanes ↔ Registered history lane
  known : ∀ id, id ∈ r.ids ↔ id ∈ history.map Lane.id
  ordered : r.ids.Pairwise fun a b =>
    (history.map Lane.id).idxOf a < (history.map Lane.id).idxOf b

theorem Registry.holds_empty : Registry.empty.Holds [] where
  keyed := by simp [empty]
  registered lane := by simp [empty, Registered]
  known id := by simp [empty, ids]
  ordered := by simp [empty, ids]

theorem Registry.Holds.nodup (h : r.Holds history) : r.ids.Nodup :=
  h.ordered.imp fun less same => by
    rw [same] at less
    exact absurd less (Nat.lt_irrefl _)

/-- One more registration. -/
theorem Registry.Holds.register (h : r.Holds history) (lane : Lane) :
    (r.register lane).Holds (history ++ [lane]) := by
  have keys : (r.register lane).ids =
      if lane.id ∈ r.ids then r.ids else r.ids ++ [lane.id] := Keyed.keys_put lane.id lane r.lanes
  -- an id that is known keeps its place
  have stays {id : String} (mem : id ∈ r.ids) :
      ((history ++ [lane]).map Lane.id).idxOf id = (history.map Lane.id).idxOf id := by
    rw [List.map_append, List.idxOf_append, if_pos ((h.known id).1 mem)]
  have ordered : r.ids.Pairwise fun a b => ((history ++ [lane]).map Lane.id).idxOf a <
      ((history ++ [lane]).map Lane.id).idxOf b := by
    apply h.ordered.imp_of_mem
    intro a b ha hb less
    rw [stays ha, stays hb]
    exact less
  constructor
  · rintro ⟨key, other⟩ mem
    rcases (Keyed.mem_put h.nodup).1 mem with ⟨rfl, rfl⟩ | ⟨-, mem⟩
    · rfl
    · exact h.keyed _ mem
  · intro other
    rw [registered_concat, ← h.registered]
    apply (Keyed.mem_put h.nodup).trans
    constructor
    · rintro (⟨-, same⟩ | further)
      · exact Or.inl same
      · exact Or.inr further
    · rintro (rfl | further)
      · exact Or.inl ⟨rfl, rfl⟩
      · exact Or.inr further
  · intro id
    rw [keys]
    simp only [List.map_append, List.map_cons, List.map_nil, List.mem_append, List.mem_singleton,
      ← h.known]
    split
    · rename_i mem
      constructor
      · exact Or.inl
      · rintro (known | rfl)
        · exact known
        · exact mem
    · rw [List.mem_append, List.mem_singleton]
  · rw [keys]
    split
    · exact ordered
    · rename_i fresh
      apply List.pairwise_append.2
      refine ⟨ordered, List.pairwise_singleton .., ?_⟩
      intro a ha b hb
      rw [List.mem_singleton.1 hb, stays ha, List.map_append, List.idxOf_append,
        if_neg fun mem => fresh ((h.known _).2 mem)]
      have := List.idxOf_lt_length_of_mem ((h.known a).1 ha)
      omega

/-- All registrations. -/
theorem Registry.holds_after (history : List Lane) : (Registry.after history).Holds history := by
  have run (done : List Lane) (r : Registry) (h : r.Holds done) :
      (history.foldl Registry.register r).Holds (done ++ history) := by
    induction history generalizing done r with
    | nil =>
      rw [List.append_nil]
      exact h
    | cons lane history ih =>
      have next := ih (done ++ [lane]) (r.register lane) (h.register lane)
      rw [List.append_assoc] at next
      exact next
  exact run [] .empty Registry.holds_empty

/-- The lanes of a registry are those that are registered, in the order of their first registrations. -/
theorem Registry.Holds.members (h : r.Holds history) :
    (∀ lane, lane ∈ r.lanes.map Prod.snd ↔ Registered history lane) ∧
      (r.lanes.map Prod.snd).Pairwise fun a b => place history a < place history b := by
  constructor
  · intro lane
    rw [← h.registered, List.mem_map]
    constructor
    · rintro ⟨entry, mem, rfl⟩
      rw [← h.keyed entry mem]
      exact mem
    · intro mem
      exact ⟨_, mem, rfl⟩
  · have ordered := h.ordered
    rw [Registry.ids, List.pairwise_map] at ordered
    rw [List.pairwise_map]
    apply ordered.imp_of_mem
    intro a b ha hb less
    rw [place, place, ← h.keyed a ha, ← h.keyed b hb]
    exact less

/-! ### Later registrations -/

variable {more : List Lane}

theorem Registered.unique (h : Registered history lane) (h' : Registered history other)
    (same : lane.id = other.id) : lane = other := by
  induction history using List.reverseRecOn with
  | nil =>
    obtain ⟨earlier, later, split, -⟩ := h
    simp at split
  | append_singleton history last ih =>
    rw [registered_concat] at h h'
    by_cases late : lane = last
    · by_cases late' : other = last
      · rw [late, late']
      · exact absurd (late ▸ same).symm (h'.resolve_left late').1
    · have known := h.resolve_left late
      by_cases late' : other = last
      · exact absurd (late' ▸ same) known.1
      · exact ih known.2 (h'.resolve_left late').2

theorem Registered.append (h : Registered history lane) (fresh : ∀ new ∈ more, new.id ≠ lane.id) :
    Registered (history ++ more) lane := by
  obtain ⟨earlier, later, rfl, last⟩ := h
  refine ⟨earlier, later ++ more, by simp, ?_⟩
  intro l mem
  rcases List.mem_append.1 mem with mem | mem
  · exact last l mem
  · exact fresh l mem

theorem Registered.of_append (h : Registered (history ++ more) lane) :
    lane ∈ more ∨ Registered history lane := by
  induction more using List.reverseRecOn with
  | nil =>
    rw [List.append_nil] at h
    exact Or.inr h
  | append_singleton more last ih =>
    rw [← List.append_assoc, registered_concat] at h
    rcases h with rfl | ⟨-, h⟩
    · exact Or.inl (by simp)
    · exact (ih h).imp_left (List.mem_append_left _)

theorem place_append (h : lane.id ∈ history.map Lane.id) :
    place (history ++ more) lane = place history lane := by
  rw [place, place, List.map_append, List.idxOf_append, if_pos h]

/-- A lane under a new id comes after all known ones. -/
theorem place_lt_of_notMem (h : lane.id ∈ history.map Lane.id)
    (fresh : other.id ∉ history.map Lane.id) :
    place (history ++ more) lane < place (history ++ more) other := by
  have early := List.idxOf_lt_length_of_mem h
  rw [place_append h, place, place, List.map_append, List.idxOf_append, if_neg fresh]
  omega

/-! ### The choice -/

/-- Whether a lane is the best for a request: it is registered and takes part with a score above zero, and
of the registered lanes that take part no other has a greater score, nor the same score and an earlier
place. -/
def IsBest (history : List Lane) (source target : Value) (lane : Lane) : Prop :=
  ∃ score, Registered history lane ∧ lane.Scores source target score ∧ 0 < score.size ∧
    ∀ other s, Registered history other → other.Scores source target s →
      s.size < score.size ∨ s.size = score.size ∧ place history lane ≤ place history other

theorem IsBest.unique (h : IsBest history source target lane)
    (h' : IsBest history source target other) : lane = other := by
  obtain ⟨score, registered, scores, -, most⟩ := h
  obtain ⟨score', registered', scores', -, most'⟩ := h'
  apply registered.unique registered'
  have first : score'.size = score.size ∧ place history lane ≤ place history other := by
    rcases most other score' registered' scores' with less | tie
    · rcases most' lane score registered scores with less' | tie'
      · exact absurd less less'.asymm
      · exact absurd tie'.1 less.ne'
    · exact tie
  have second : place history other ≤ place history lane := by
    rcases most' lane score registered scores with less | tie
    · exact absurd first.1 less.ne'
    · exact tie.2
  have same : place history lane = place history other := Nat.le_antisymm first.2 second
  exact (List.idxOf_inj registered.id_mem).1 same

/-- What later registrations under new ids that score no more leave as it was. -/
theorem IsBest.append (h : IsBest history source target lane)
    (scores : lane.Scores source target score)
    (fresh : ∀ new ∈ more, new.id ∉ history.map Lane.id)
    (most : ∀ new ∈ more, ∀ s, new.Scores source target s → s.size ≤ score.size) :
    IsBest (history ++ more) source target lane := by
  obtain ⟨score', registered, scores', high, best⟩ := h
  obtain rfl := scores.unique scores'
  have known := registered.id_mem
  have stays : Registered (history ++ more) lane := by
    apply registered.append
    intro new mem same
    rw [← same] at known
    exact fresh new mem known
  refine ⟨score, stays, scores, high, ?_⟩
  intro other s registered' scores'
  rcases registered'.of_append with mem | old
  · rcases (most other mem s scores').lt_or_eq with less | tie
    · exact Or.inl less
    · exact Or.inr ⟨tie, (place_lt_of_notMem known (fresh other mem)).le⟩
  · rw [place_append known, place_append old.id_mem]
    exact best other s old scores'

theorem detect_eq (r : Registry) : r.detect source target =
    ((r.lanes.map Prod.snd).foldl (better source target) (none, .real .zero)).1 := rfl

/-- What the choice from the registered lanes comes to. -/
theorem detect_cases
    (numbers : ∀ lane, Registered history lane → ∀ s, lane.Scores source target s → s ≠ .real .nan) :
    ((Registry.after history).detect source target = none ∧
        ∀ lane s, Registered history lane → lane.Scores source target s → s.size ≤ 0) ∨
      ∃ lane, (Registry.after history).detect source target = some lane ∧
        IsBest history source target lane := by
  obtain ⟨members, ordered⟩ := (Registry.holds_after history).members
  have start : Leads source target [] (none, .real .zero) := .none (by simp)
  have leads := leads_foldl start
    fun lane (mem : lane ∈ (Registry.after history).lanes.map Prod.snd) =>
      numbers lane ((members lane).1 mem)
  rw [List.nil_append] at leads
  rw [detect_eq]
  generalize ((Registry.after history).lanes.map Prod.snd).foldl (better source target)
    (none, .real .zero) = best at leads
  cases leads with
  | none low =>
    refine Or.inl ⟨rfl, ?_⟩
    intro lane s registered
    exact low lane ((members lane).2 registered) s
  | @some before after lane score split scores _ high less most =>
    rw [split] at members ordered
    have later := (List.pairwise_cons.1 (List.pairwise_append.1 ordered).2.1).1
    refine Or.inr ⟨lane, rfl, score, (members lane).1 (by simp), scores, high, ?_⟩
    intro other s registered scores'
    have mem := (members other).2 registered
    rw [List.mem_append, List.mem_cons] at mem
    rcases mem with mem | rfl | mem
    · exact Or.inl (less other mem s scores')
    · rw [scores'.unique scores]
      exact Or.inr ⟨rfl, Nat.le_refl _⟩
    · rcases (most other mem s scores').lt_or_eq with lower | tie
      · exact Or.inl lower
      · exact Or.inr ⟨tie, (later other mem).le⟩

theorem not_isBest
    (low : ∀ lane s, Registered history lane → lane.Scores source target s → s.size ≤ 0) :
    ¬ IsBest history source target lane := by
  rintro ⟨score, registered, scores, high, -⟩
  exact absurd high (low lane score registered scores).not_gt

/-- A lane is chosen exactly if it is the best one. -/
theorem detect_eq_some_iff
    (numbers : ∀ lane, Registered history lane → ∀ s, lane.Scores source target s → s ≠ .real .nan) :
    (Registry.after history).detect source target = some lane ↔ IsBest history source target lane := by
  rcases detect_cases numbers with ⟨none, low⟩ | ⟨best, found, isBest⟩
  · rw [none]
    constructor
    · intro h
      exact absurd h (by simp)
    · intro h
      exact absurd h (not_isBest low)
  · rw [found, Option.some.injEq]
    constructor
    · rintro rfl
      exact isBest
    · exact isBest.unique

/-- After any registrations a request gets no lane exactly if no registered lane takes part with a score
above zero, and otherwise the best one. So lanes that come later, under new ids, and that do not take part
or score no more, change nothing. -/
theorem detect_finds_best (history : List Lane) (source target : Value)
    (numbers : ∀ lane, Registered history lane → ∀ s, lane.Scores source target s → s ≠ .real .nan) :
    ((Registry.after history).detect source target = none ↔
        ∀ lane s, Registered history lane → lane.Scores source target s → s.size ≤ 0) ∧
      (∀ lane, (Registry.after history).detect source target = some lane ↔
        IsBest history source target lane) ∧
      ∀ lane score, (Registry.after history).detect source target = some lane →
        lane.Scores source target score →
        ∀ more : List Lane, (∀ new ∈ more, new.id ∉ history.map Lane.id ∧
            ∀ s, new.Scores source target s → s ≠ .real .nan ∧ s.size ≤ score.size) →
          (more.foldl Registry.register (Registry.after history)).detect source target = some lane := by
  refine ⟨?_, fun lane => detect_eq_some_iff numbers, ?_⟩
  · rcases detect_cases numbers with ⟨none, low⟩ | ⟨best, found, isBest⟩
    · rw [none]
      exact ⟨fun _ => low, fun _ => rfl⟩
    · rw [found]
      constructor
      · intro h
        exact absurd h (by simp)
      · intro low
        exact absurd isBest (not_isBest low)
  · intro lane score found scores more later
    have isBest := (detect_eq_some_iff numbers).1 found
    rw [Registry.after, ← List.foldl_append]
    apply (detect_eq_some_iff _).2
    · exact isBest.append scores (fun new mem => (later new mem).1)
        fun new mem s hs => ((later new mem).2 s hs).2
    · intro other registered s hs
      rcases registered.of_append with mem | old
      · exact ((later other mem).2 s hs).1
      · exact numbers other old s hs

/-- A lane under an id, with the same score for each request. -/
def steady (id : String) (deprecated : Bool) (score : Option Scalar) : Lane :=
  { tap with
    id := id
    deprecated := deprecated
    applicability := fun _ _ => score }

/-- The second lane under an id takes the place of the first and wins the tie; a deprecated lane with a
greater score and one without a score change nothing. -/
theorem detect_finds_best_of_replaced :
    let history := [steady "a" false (some (.whole 1)), steady "b" false (some (.whole 2)),
      steady "a" false (some (.whole 2))]
    IsBest history .null .null (steady "a" false (some (.whole 2))) ∧
      ([steady "c" true (some (.whole 3)), steady "d" false none].foldl Registry.register
        (Registry.after history)).detect .null .null = some (steady "a" false (some (.whole 2))) := by
  have numbers : ∀ lane, Registered [steady "a" false (some (.whole 1)),
      steady "b" false (some (.whole 2)), steady "a" false (some (.whole 2))] lane →
      ∀ s, lane.Scores .null .null s → s ≠ .real .nan := by
    rintro lane ⟨earlier, later, split, -⟩ s ⟨-, scored⟩
    have mem : lane ∈ [steady "a" false (some (.whole 1)), steady "b" false (some (.whole 2)),
        steady "a" false (some (.whole 2))] := by
      rw [split]
      simp
    simp only [List.mem_cons, List.not_mem_nil, or_false] at mem
    rintro rfl
    rcases mem with rfl | rfl | rfl <;> simp [steady] at scored
  obtain ⟨-, best, stays⟩ := detect_finds_best _ .null .null numbers
  have found : (Registry.after [steady "a" false (some (.whole 1)),
      steady "b" false (some (.whole 2)), steady "a" false (some (.whole 2))]).detect .null .null =
      some (steady "a" false (some (.whole 2))) := by
    have high : (Scalar.whole 2).gt (.real .zero) = true := by
      rw [Scalar.gt_iff (by decide) (by decide), Scalar.size_zero]
      have := unit_pos
      exact WithBot.coe_lt_coe.2 (WithTop.coe_lt_coe.2 (by omega))
    have tie : (Scalar.whole 2).gt (.whole 2) = false := by simp [Scalar.gt]
    simp [Registry.after, Registry.register, Registry.empty, Keyed.put, Registry.detect, better, score?,
      steady, high, tie]
  refine ⟨(best _).1 found, stays _ (.whole 2) found ⟨rfl, rfl⟩ _ ?_⟩
  simp [steady, Scores]

end MonoTap.Lane

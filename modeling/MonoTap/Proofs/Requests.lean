import Mathlib.Data.List.Nodup
import MonoTap.Proofs.Insertions

/-!
# Requests for imports

What a sequence of requests comes to. A name is to be added when it is asked for first, unless it is
covered; names to be added keep the order of their requests. The edits forget that order: they depend
only on which names were asked for.
-/

set_option autoImplicit false

namespace MonoTap.Imports

open Text (Source)

theorem pairwise_sortNames (names : List String) : (sortNames names).Pairwise (· ≤ ·) := by
  have ordered := @List.pairwise_mergeSort String (fun a b => decide (a ≤ b))
    (fun a b c first second => by
      simp only [decide_eq_true_eq] at first second ⊢
      exact String.le_trans first second)
    (fun a b => by
      simp only [Bool.or_eq_true, decide_eq_true_eq]
      exact String.le_total a b) names
  exact ordered.imp fun h => of_decide_eq_true h

theorem sortNames_perm (names : List String) : (sortNames names).Perm names :=
  List.mergeSort_perm names _

/-- Sorting forgets the order of names. -/
theorem sortNames_eq_of_perm {names others : List String} (h : names.Perm others) :
    sortNames names = sortNames others := by
  have same : (sortNames names).Perm (sortNames others) :=
    (sortNames_perm names).trans (h.trans (sortNames_perm others).symm)
  exact same.eq_of_pairwise (fun a b _ _ => String.le_antisymm) (pairwise_sortNames names)
    (pairwise_sortNames others)

/-- Sorting changes nothing about sorted names, and about no others. -/
theorem eq_sortNames_iff {names : List String} : names = sortNames names ↔ names.Pairwise (· ≤ ·) := by
  constructor
  · intro same
    rw [same]
    exact pairwise_sortNames names
  · intro sorted
    exact (sortNames_perm names).symm.eq_of_pairwise (fun a b _ _ => String.le_antisymm) sorted
      (pairwise_sortNames names)

namespace Registration

/-- The answers to requests made one after the other: whether each name is to be added. -/
def answers (r : Registration) : List String → List Bool
  | [] => []
  | name :: names => (!r.knows name) :: (r.ensure name).answers names

theorem length_answers (r : Registration) (names : List String) :
    (r.answers names).length = names.length := by
  induction names generalizing r with
  | nil => rfl
  | cons name names ih => rw [answers, List.length_cons, List.length_cons, ih]

/-- A request makes its own name known and no other. -/
theorem knows_ensure_iff {r : Registration} {name other : String} :
    (r.ensure name).knows other = true ↔ r.knows other = true ∨ other = name := by
  by_cases known : r.knows name = true
  · rw [ensure, if_pos known]
    constructor
    · exact Or.inl
    · rintro (h | rfl)
      · exact h
      · exact known
  · rw [ensure, if_neg known]
    simp only [knows, Bool.or_eq_true, List.contains_iff_mem, List.mem_append, List.mem_singleton,
      or_assoc]

/-- A name is to be added if nothing makes it known, neither before the requests nor one of them. -/
theorem answers_getElem_iff {r : Registration} {names : List String} {i : Nat}
    (h : i < (r.answers names).length) (inside : i < names.length) :
    (r.answers names)[i] = true ↔ r.knows names[i] = false ∧ names[i] ∉ names.take i := by
  induction names generalizing r i with
  | nil => exact absurd inside (Nat.not_lt_zero i)
  | cons name names ih =>
    cases i with
    | zero => simp [answers]
    | succ i =>
      have own := ih (r := r.ensure name)
        (by rw [length_answers]; exact Nat.lt_of_succ_lt_succ inside)
        (Nat.lt_of_succ_lt_succ inside)
      simp only [answers, List.getElem_cons_succ, List.take_succ_cons, List.mem_cons, not_or, own,
        ← Bool.not_eq_true, knows_ensure_iff]
      exact and_assoc

/-- The names to be added follow those that were to be added before. -/
theorem pending_ensureAll (r : Registration) (names : List String) :
    (r.ensureAll names).pending =
      r.pending ++ ((names.zip (r.answers names)).filter (·.2)).map (·.1) := by
  induction names generalizing r with
  | nil => simp [ensureAll, answers]
  | cons name names ih =>
    have step : (r.ensure name).pending =
        r.pending ++ if r.knows name then [] else [name] := by
      unfold ensure
      split <;> simp_all
    have own := ih (r.ensure name)
    rw [ensureAll] at own
    rw [ensureAll, List.foldl_cons, own, step, answers, List.zip_cons_cons]
    cases r.knows name <;> simp

theorem mem_pending_ensure {r : Registration} {name other : String} :
    other ∈ (r.ensure name).pending ↔
      other ∈ r.pending ∨ (other = name ∧ r.table.covers other = false) := by
  unfold ensure
  split
  · rename_i known
    rw [knows, Bool.or_eq_true, List.contains_iff_mem] at known
    constructor
    · exact Or.inl
    · rintro (h | ⟨rfl, uncovered⟩)
      · exact h
      · exact known.resolve_left (by simp [uncovered])
  · rename_i unknown
    rw [knows, Bool.or_eq_true, not_or] at unknown
    rw [List.mem_append, List.mem_singleton]
    refine or_congr_right ⟨fun same => ⟨same, ?_⟩, And.left⟩
    rw [same]
    exact (Bool.not_eq_true _).mp unknown.1

/-- A name is to be added if it was so before or is asked for and not covered. -/
theorem mem_pending_ensureAll {r : Registration} {names : List String} {other : String} :
    other ∈ (r.ensureAll names).pending ↔
      other ∈ r.pending ∨ (other ∈ names ∧ r.table.covers other = false) := by
  induction names generalizing r with
  | nil => simp [ensureAll]
  | cons name names ih =>
    have own := ih (r := r.ensure name)
    rw [ensureAll] at own
    rw [ensureAll, List.foldl_cons, own, mem_pending_ensure, table_ensure, List.mem_cons]
    rw [or_assoc, or_and_right]

theorem nodup_pending_ensure {r : Registration} (h : r.pending.Nodup) (name : String) :
    (r.ensure name).pending.Nodup := by
  unfold ensure
  split
  · exact h
  · rename_i unknown
    rw [knows, Bool.or_eq_true, not_or, List.contains_iff_mem] at unknown
    refine List.nodup_append.2 ⟨h, List.nodup_singleton name, fun a ha b hb same => ?_⟩
    rw [List.mem_singleton.1 hb] at same
    exact unknown.2 (same ▸ ha)

/-- No name is added twice. -/
theorem nodup_pending_ensureAll {r : Registration} (h : r.pending.Nodup) (names : List String) :
    (r.ensureAll names).pending.Nodup := by
  induction names generalizing r with
  | nil => exact h
  | cons name names ih => exact ih (nodup_pending_ensure h name)

/-- The edits depend on the table and on which names are to be added. -/
theorem edits_eq_of_perm {r s : Registration} (table : r.table = s.table)
    (pending : r.pending.Perm s.pending) (source : Source) : r.edits source = s.edits source := by
  unfold edits
  rw [table, sortNames_eq_of_perm pending, pending.isEmpty_eq]

/-- A request is answered by yes if its name is not covered and was not asked for before. The names to be
added are those with this answer, each once and in the order of the requests. The edits are the same for
any other requests for the same names, in whatever order and however often they are made. -/
theorem requests_by_names (t : Table) (names : List String) :
    (∀ i (h : i < ((start t).answers names).length) (inside : i < names.length),
      ((start t).answers names)[i] = true ↔
        t.covers names[i] = false ∧ names[i] ∉ names.take i) ∧
    ((start t).answers names).length = names.length ∧
    ((start t).ensureAll names).pending =
      ((names.zip ((start t).answers names)).filter (·.2)).map (·.1) ∧
    ((start t).ensureAll names).pending.Nodup ∧
    (∀ name, name ∈ ((start t).ensureAll names).pending ↔ name ∈ names ∧ t.covers name = false) ∧
    ∀ others : List String, (∀ name, name ∈ others ↔ name ∈ names) →
      ∀ source, ((start t).ensureAll others).edits source =
        ((start t).ensureAll names).edits source := by
  have none : (start t).pending.Nodup := List.nodup_nil
  refine ⟨fun i h inside => ?_, length_answers _ _, pending_ensureAll _ _,
    nodup_pending_ensureAll none names, fun name => ?_, fun others same source => ?_⟩
  · have unasked : (start t).knows names[i] = t.covers names[i] := by simp [knows, start]
    rw [answers_getElem_iff h inside, unasked]
  · rw [mem_pending_ensureAll]
    simp [start]
  · apply edits_eq_of_perm
    · rw [table_ensureAll, table_ensureAll]
    · refine (List.perm_ext_iff_of_nodup (nodup_pending_ensureAll none others)
        (nodup_pending_ensureAll none names)).2 fun name => ?_
      rw [mem_pending_ensureAll, mem_pending_ensureAll, same]

/-- Three requests, one of them made twice and one for a covered name. -/
theorem requests_by_names_of_repeated :
    let t : Table := ⟨[⟨"b.B", false, false, 0, 11⟩], none⟩
    let names := ["c.C", "a.A", "b.B", "c.C"]
    (start t).answers names = [true, true, false, false] ∧
      ((start t).ensureAll names).pending = ["c.C", "a.A"] ∧
      ∀ source, ((start t).ensureAll ["a.A", "c.C", "b.B", "a.A"]).edits source =
        ((start t).ensureAll names).edits source := by
  intro t names
  have into : ∀ name ∈ ["a.A", "c.C", "b.B", "a.A"], name ∈ names := by decide
  have back : ∀ name ∈ names, name ∈ ["a.A", "c.C", "b.B", "a.A"] := by decide
  have known := requests_by_names t names
  exact ⟨by decide +kernel, by decide +kernel, known.2.2.2.2.2 _ fun name => ⟨into name, back name⟩⟩

end Registration

end MonoTap.Imports

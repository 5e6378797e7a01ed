import MonoTap.CallSite.Conversion
import MonoTap.Proofs.Occurrences
import Mathlib.Data.List.Infix

/-!
# Mentions of the method that is converted

How often a text holds the name of the method whose calls are converted. A listener holds it no more
often than the statements in it, if the other names in the listener do not hold it, and the imports
that are inserted do not hold it at all.
-/

set_option autoImplicit false

namespace MonoTap

open Callback (Bucket)
open Text (Edit Sealed Source times)

/-- The name of the method whose calls are converted, as characters. -/
def methodWord : List Char :=
  methodName.toList

/-- How often a text mentions the method whose calls are converted. -/
def mentions (text : String) : Nat :=
  times methodWord text.toList

theorem methodWord_ne_nil : methodWord ≠ [] := by decide

theorem not_mem_methodWord_of_isBlank {c : Char} (h : Text.isBlank c = true) : c ∉ methodWord := by
  have letters : (methodWord.all fun d => !Text.isBlank d) = true := by decide
  intro mem
  have letter := List.all_eq_true.1 letters c mem
  rw [h] at letter
  cases letter

theorem apart_of_allBlank {cs : List Char} (h : Text.allBlank cs = true) :
    ∀ c ∈ cs, c ∉ methodWord :=
  fun c hc => not_mem_methodWord_of_isBlank (List.all_eq_true.1 h c hc)

/-- No end of the name begins like the name of the method that is called instead. -/
theorem detached_tap (cs : List Char) : Text.Detached methodWord ('t' :: 'a' :: cs) := by
  have ends : ∀ back ∈ methodWord.tails, back ≠ ['t'] ∧ back.take 2 ≠ ['t', 'a'] := by decide
  intro back suffix full begins
  obtain ⟨one, two⟩ := ends back ((List.mem_tails back methodWord).2 suffix)
  obtain ⟨rest, split⟩ := begins
  match back with
  | [] => exact full rfl
  | [c] =>
    cases (List.cons.inj split).1
    exact one rfl
  | c :: d :: back =>
    cases (List.cons.inj split).1
    cases (List.cons.inj (List.cons.inj split).2).1
    exact two rfl

/-! ### Names -/

/-- A number after a name brings in no mention. -/
theorem mentions_numbered (base : String) (n : Nat) :
    mentions (base ++ toString n) = mentions base := by
  have written : (toString n).toList = Nat.toDigits 10 n := Nat.toList_repr
  have letters : (methodWord.all fun d => !d.isDigit) = true := by decide
  have apart : ∀ c ∈ Nat.toDigits 10 n, c ∉ methodWord := by
    intro c hc mem
    have letter := List.all_eq_true.1 letters c mem
    rw [Nat.isDigit_of_mem_toDigits (by decide) (by decide) hc] at letter
    cases letter
  have none := Text.times_append_of_apart apart methodWord_ne_nil []
  have closed := Text.sealed_of_apart apart Nat.toDigits_ne_nil methodWord_ne_nil base.toList []
  rw [List.append_nil] at none closed
  rw [mentions, mentions, String.toList_append, written, closed, none]
  rfl

/-- A fresh name is the preferred one, or that with a number after it. -/
theorem freshName_cases (taken : List String) (preferred : String) :
    freshName taken preferred = preferred ∨
      ∃ n : Nat, freshName taken preferred = preferred ++ toString n := by
  rw [freshName, numberedName]
  split
  · cases found : ((List.range (taken.length + 1)).map fun k => preferred ++ toString (k + 1)).find?
      (!taken.contains ·) with
    | none => exact .inl rfl
    | some name =>
      obtain ⟨k, _, rfl⟩ := List.mem_map.1 (List.mem_of_find?_eq_some found)
      exact .inr ⟨k + 1, rfl⟩
  · exact .inl rfl

theorem mentions_freshName {preferred : String} (h : mentions preferred = 0)
    (taken : List String) : mentions (freshName taken preferred) = 0 := by
  rcases freshName_cases taken preferred with same | ⟨n, same⟩
  · rw [same, h]
  · rw [same, mentions_numbered, h]

/-! ### Listeners -/

namespace Listener

/-- Whether no name in a listener mentions the method whose calls are converted. -/
structure Names.Foreign (names : Names) : Prop where
  elementType : mentions names.elementType = 0
  value : mentions names.value = 0
  error : mentions names.error = 0
  termination : mentions names.termination = 0

variable {layout : Layout} {names : Names} {bodies : Bucket → List StatementText}

theorem Names.Foreign.parameter (h : names.Foreign) (b : Bucket) :
    times methodWord (names.parameter b).toList = 0 := by
  have two {type name : String} (first : mentions type = 0) (second : mentions name = 0) :
      times methodWord (type ++ " " ++ name).toList = 0 := by
    have split : (type ++ " " ++ name).toList = type.toList ++ ' ' :: name.toList := by
      simp [String.toList_append]
    rw [split, Text.times_append_cons (by decide) methodWord_ne_nil]
    exact Nat.add_eq_zero_iff.2 ⟨first, second⟩
  cases b with
  | value => exact two h.elementType h.value
  | error => exact @two "Throwable" names.error (by decide) h.error
  | termination => exact @two "SignalType" names.termination (by decide) h.termination

/-- The line that opens a method does not mention the method that is converted. -/
theorem Names.Foreign.opening (h : names.Foreign) (b : Bucket) :
    times methodWord
      ("public void " ++ b.method ++ "(" ++ names.parameter b ++ ") \x7b").toList = 0 := by
  have split : ("public void " ++ b.method ++ "(" ++ names.parameter b ++ ") \x7b").toList =
      ("public void " ++ b.method).toList ++
        '(' :: ((names.parameter b).toList ++ ')' :: " \x7b".toList) := by
    simp [String.toList_append]
  have before : times methodWord ("public void " ++ b.method).toList = 0 := by
    cases b <;> decide
  have after : times methodWord " \x7b".toList = 0 := by decide
  rw [split, Text.times_append_cons (by decide) methodWord_ne_nil,
    Text.times_append_cons (by decide) methodWord_ne_nil, before, h.parameter, after]

/-- Lines put together hold a word as often as the lines do, one by one. -/
theorem sum_times_flatMap_lines_le {start : List Char} (blank : Text.allBlank start = true)
    (statements : List StatementText) :
    ((statements.flatMap (·.lines start)).map (times methodWord)).sum ≤
      (statements.map fun s => mentions s.text).sum := by
  induction statements with
  | nil => exact Nat.le_refl _
  | cons s statements ih =>
    have own : ((s.lines start).map (times methodWord)).sum ≤ mentions s.text :=
      sum_times_reindent_le (apart_of_allBlank blank) (by decide) methodWord_ne_nil s.indent _
    rw [List.flatMap_cons, List.map_append, List.sum_append, List.map_cons, List.sum_cons]
    exact Nat.add_le_add own ih

section

variable (foreign : names.Foreign) (base : Text.allBlank layout.base = true)
  (step : Text.allBlank layout.step = true)
include foreign base step

/-- The lines of a method mention the method that is converted at most as often as its statements. -/
theorem sum_times_methodLines_le (statements : List StatementText) (b : Bucket) :
    ((methodLines layout names statements b).map (times methodWord)).sum ≤
      (statements.map fun s => mentions s.text).sum := by
  have member : Text.allBlank layout.member = true := by
    rw [Text.allBlank] at base step ⊢
    rw [Layout.member, List.all_append, base, step]
    rfl
  have body : Text.allBlank layout.body = true := by
    rw [Text.allBlank] at member step ⊢
    rw [Layout.body, List.all_append, member, step]
    rfl
  have indented (cs : List Char) : times methodWord (layout.member ++ cs) = times methodWord cs :=
    Text.times_append_of_apart (apart_of_allBlank member) methodWord_ne_nil cs
  have mark : times methodWord "@Override".toList = 0 := by decide
  have closing : times methodWord ['\x7d'] = 0 := by decide
  have marks : ((if layout.override then [layout.member ++ "@Override".toList] else []).map
      (times methodWord)).sum = 0 := by
    split
    · rw [List.map_singleton, List.sum_singleton, indented, mark]
    · rfl
  have statements := sum_times_flatMap_lines_le body statements
  rw [methodLines, List.map_append, List.map_append, List.map_append, List.sum_append,
    List.sum_append, List.sum_append, marks, List.map_singleton, List.map_singleton,
    List.sum_singleton, List.sum_singleton, indented, indented, foreign.opening, closing]
  omega

/-- A listener mentions the method that is converted at most as often as the statements in it. -/
theorem mentions_render_le (newline : ∀ c ∈ layout.newline, c ∉ methodWord)
    (some : layout.newline ≠ []) :
    mentions (render layout names bodies) ≤
      (layout.order.map fun b => ((bodies b).map fun s => mentions s.text).sum).sum := by
  have members (order : List Bucket) :
      ((membersLines layout names bodies order).map (times methodWord)).sum ≤
        (order.map fun b => ((bodies b).map fun s => mentions s.text).sum).sum := by
    have method := sum_times_methodLines_le foreign base step
    fun_induction membersLines layout names bodies order with
    | case1 => exact Nat.le_refl _
    | case2 b =>
      rw [List.map_singleton, List.sum_singleton]
      exact method (bodies b) b
    | case3 b buckets _ ih =>
      rw [List.map_append, List.sum_append, List.map_cons, List.sum_cons, List.map_cons,
        List.sum_cons, Text.times_nil, Nat.zero_add]
      exact Nat.add_le_add (method (bodies b) b) ih
  have opening : times methodWord "tap(() -> new DefaultSignalListener<>() \x7b".toList = 0 := by
    decide
  have closing : times methodWord (layout.base ++ "\x7d)".toList) = 0 := by
    rw [Text.times_append_of_apart (apart_of_allBlank base) methodWord_ne_nil]
    decide
  rw [mentions, render, String.toList_ofList, Text.times_joinWith newline some methodWord_ne_nil,
    callLines, List.cons_append, List.map_cons, List.sum_cons, List.map_append, List.sum_append,
    List.map_singleton, List.sum_singleton, opening, closing, Nat.zero_add, Nat.add_zero]
  exact members layout.order

end

/-- No mention of the method that is converted reaches into a listener or out of it. -/
theorem sealed_render : Sealed methodWord (render layout names bodies).toList := by
  obtain ⟨front, joined⟩ := Text.exists_joinWith_concat layout.newline
    (layout.base ++ "\x7d)".toList) (membersLines layout names bodies layout.order)
  have more : Text.joinWith layout.newline (callLines layout names bodies) =
      "tap(() -> new DefaultSignalListener<>() \x7b".toList ++ layout.newline ++
        (front ++ (layout.base ++ "\x7d)".toList)) := by
    rw [← joined, callLines, List.cons_append]
    cases membersLines layout names bodies layout.order <;> rfl
  have shape : (render layout names bodies).toList =
      't' :: 'a' :: ("p(() -> new DefaultSignalListener<>() \x7b".toList ++ layout.newline ++ front ++
        layout.base ++ ['\x7d']) ++ [')'] := by
    rw [render, String.toList_ofList, more]
    simp
  rw [shape]
  exact Text.sealed_concat (fun back => detached_tap _) (by decide) methodWord_ne_nil

end Listener

/-! ### Imports -/

/-- A text that can stand anywhere without bringing in a mention of the method that is converted. -/
structure Idle (text : String) : Prop where
  closed : Sealed methodWord text.toList
  mentions : mentions text = 0

theorem Idle.append {s t : String} (first : Idle s) (second : Idle t) : Idle (s ++ t) := by
  have closed := first.closed.append second.closed
  have both := first.closed [] t.toList
  have own : times methodWord s.toList = 0 := first.mentions
  have other : times methodWord t.toList = 0 := second.mentions
  rw [List.nil_append, Text.times_nil, own, other] at both
  rw [← String.toList_append] at closed both
  exact ⟨closed, both⟩

theorem newlineOf_cases (bs : List UInt8) : Text.newlineOf bs = "\n" ∨ Text.newlineOf bs = "\r\n" := by
  unfold Text.newlineOf
  split
  · split
    · exact Or.inr rfl
    · exact Or.inl rfl
  · exact Or.inl rfl

theorem newlineOf_apart (bs : List UInt8) :
    (∀ c ∈ (Text.newlineOf bs).toList, c ∉ methodWord) ∧ (Text.newlineOf bs).toList ≠ [] := by
  rcases newlineOf_cases bs with same | same
  all_goals
    rw [same]
    exact ⟨apart_of_allBlank (by decide), by decide⟩

theorem idle_newlineOf (bs : List UInt8) : Idle (Text.newlineOf bs) := by
  obtain ⟨apart, some⟩ := newlineOf_apart bs
  refine ⟨Text.sealed_of_apart apart some methodWord_ne_nil, ?_⟩
  rcases newlineOf_cases bs with same | same
  all_goals
    rw [same]
    decide

namespace Imports

theorem idle_declarationOf {name : String} (h : mentions name = 0) : Idle (declarationOf name) := by
  have shape : (declarationOf name).toList =
      'i' :: ("mport".toList ++ ' ' :: name.toList) ++ [';'] := by
    simp [declarationOf, String.toList_append]
  have word : times methodWord "mport".toList = 0 := by decide
  have own : times methodWord name.toList = 0 := h
  constructor
  · rw [shape]
    refine Text.sealed_concat (fun back => ?_) (by decide) methodWord_ne_nil
    exact Text.detached_cons (by decide) _
  · rw [mentions, shape, Text.times_append_cons (by decide) methodWord_ne_nil,
      Text.times_cons (by decide) methodWord_ne_nil,
      Text.times_append_cons (by decide) methodWord_ne_nil, word, own, Text.times_nil]

section

variable {P : String → Prop} {newline : String} {names : List String}
  (own : ∀ name ∈ names, P (declarationOf name)) (before : ∀ s, P s → P (newline ++ s))
  (after : ∀ s, P s → P (s ++ newline)) (both : ∀ s t, P s → P t → P (s ++ t))

include own after both in
/-- What holds of declarations holds of several ones, each on a line of its own. -/
theorem intercalate_declarations (some : names ≠ []) :
    P (newline.intercalate (names.map declarationOf)) := by
  induction names with
  | nil => exact (some rfl).elim
  | cons name names ih =>
    have first := own name List.mem_cons_self
    cases names with
    | nil =>
      rw [List.map_singleton, String.intercalate_singleton]
      exact first
    | cons next names =>
      have rest := ih (fun n hn => own n (List.mem_cons_of_mem name hn)) (List.cons_ne_nil next names)
      rw [List.map_cons, List.map_cons, String.intercalate_cons_cons]
      exact both _ _ (after _ first) rest

include own before both in
theorem join_declarations (some : names ≠ []) :
    P (String.join (names.map (newline ++ declarationOf ·))) := by
  induction names with
  | nil => exact (some rfl).elim
  | cons name names ih =>
    have first := before _ (own name List.mem_cons_self)
    rw [List.map_cons, String.join_cons]
    cases names with
    | nil =>
      rw [List.map_nil, String.join_nil, String.append_empty]
      exact first
    | cons next names =>
      exact both _ _ first
        (ih (fun n hn => own n (List.mem_cons_of_mem name hn)) (List.cons_ne_nil next names))

end

/-- The edits that declare imports are made of declarations and line ends. -/
theorem of_mem_edits {P : String → Prop} {r : Registration} {source : Source} {e : Edit}
    (he : e ∈ r.edits source) (own : ∀ name ∈ r.pending, P (declarationOf name))
    (before : ∀ s, P s → P (Text.newlineOf source.toBytes ++ s))
    (after : ∀ s, P s → P (s ++ Text.newlineOf source.toBytes))
    (both : ∀ s t, P s → P t → P (s ++ t)) : P e.replacement := by
  unfold Registration.edits at he
  split at he
  · cases he
  · rename_i full
    dsimp only at he
    have perm : (sortNames r.pending).Perm r.pending := List.mergeSort_perm _ _
    have own : ∀ name ∈ sortNames r.pending, P (declarationOf name) := fun name hn =>
      own name (perm.mem_iff.1 hn)
    have some : sortNames r.pending ≠ [] := fun none => by
      rw [none] at perm
      rw [List.isEmpty_iff] at full
      exact full perm.nil_eq.symm
    have joined := join_declarations own before both some
    split at he
    · cases List.mem_singleton.1 he
      have block := intercalate_declarations own after both some
      unfold openingInsertion
      split
      · show P (_ ++ _ ++ _)
        rw [String.append_assoc]
        exact before _ (before _ block)
      · exact after _ (after _ block)
    · split at he
      · split at he
        · obtain ⟨name, hn, rfl⟩ := List.mem_map.1 he
          unfold sortedInsertion
          split
          · exact after _ (own name hn)
          · exact before _ (own name hn)
        · cases List.mem_singleton.1 he
          exact joined
      · cases List.mem_singleton.1 he
        exact joined

/-- The edits that declare imports bring in no mention. -/
theorem idle_of_mem_edits {r : Registration} {source : Source} {e : Edit}
    (h : ∀ name ∈ r.pending, mentions name = 0) (he : e ∈ r.edits source) :
    Idle e.replacement := by
  have line := idle_newlineOf source.toBytes
  exact of_mem_edits he (fun name hn => idle_declarationOf (h name hn)) (fun _ => line.append)
    (fun _ own => own.append line) fun _ _ => Idle.append

theorem mem_ensureAll {r : Registration} {names : List String} {name : String}
    (h : name ∈ (r.ensureAll names).pending) : name ∈ r.pending ∨ name ∈ names := by
  unfold Registration.ensureAll at h
  induction names generalizing r with
  | nil => exact Or.inl h
  | cons first names ih =>
    rcases ih h with h | h
    · unfold Registration.ensure at h
      split at h
      · exact Or.inl h
      · rcases List.mem_append.1 h with h | h
        · exact Or.inl h
        · cases List.mem_singleton.1 h
          exact Or.inr List.mem_cons_self
    · exact Or.inr (List.mem_cons_of_mem first h)

end Imports

theorem mentions_of_mem_listenerImports {name : String} (h : name ∈ listenerImports) :
    mentions name = 0 := by
  have all : ∀ name ∈ listenerImports, mentions name = 0 := by decide
  exact all name h

end MonoTap

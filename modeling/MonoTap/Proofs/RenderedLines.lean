import Mathlib.Data.List.Forall2
import MonoTap.Proofs.Segments

/-!
# The text of a listener, line by line

The text of a listener is the text of its methods in their order. Each line of a statement is one line
of the method for its bucket, under the indentation of the body; a line of blanks becomes an empty one.
So no line is lost or joined to another, and without its blanks the listener is its skeleton with the
statements in it.
-/

set_option autoImplicit false

namespace MonoTap.Text

variable {cs : List Char} {sep : Char}

/-- A text without its blanks. -/
def withoutBlanks (cs : List Char) : List Char :=
  cs.filter (!isBlank ·)

theorem withoutBlanks_append (cs ds : List Char) :
    withoutBlanks (cs ++ ds) = withoutBlanks cs ++ withoutBlanks ds :=
  List.filter_append ..

theorem withoutBlanks_eq_nil (h : ∀ c ∈ cs, isBlank c = true) : withoutBlanks cs = [] :=
  List.filter_eq_nil_iff.2 fun c hc => by rw [h c hc]; decide

theorem withoutBlanks_flatMap {α : Type} (f : α → List Char) (items : List α) :
    withoutBlanks (items.flatMap f) = items.flatMap fun item => withoutBlanks (f item) := by
  rw [withoutBlanks, List.filter_flatMap]
  rfl

theorem withoutBlanks_trimRight (cs : List Char) : withoutBlanks (trimRight cs) = withoutBlanks cs := by
  induction cs with
  | nil => rfl
  | cons c cs ih =>
    cases solid : isBlank c with
    | false =>
      rw [trimRight_cons_of_not_blank solid, withoutBlanks, withoutBlanks, List.filter_cons,
        List.filter_cons]
      exact congrArg (fun rest => if !isBlank c then c :: rest else rest) ih
    | true =>
      have dropped (rest : List Char) : withoutBlanks (c :: rest) = withoutBlanks rest :=
        List.filter_cons_of_neg (by rw [solid]; decide)
      rw [trimRight, dropped]
      split
      · rename_i empty
        rw [solid, if_pos rfl, ← ih, empty]
      · rw [dropped, ih]

theorem withoutBlanks_trimLeft (cs : List Char) : withoutBlanks (trimLeft cs) = withoutBlanks cs := by
  have whole : withoutBlanks (cs.takeWhile isBlank ++ trimLeft cs) = withoutBlanks cs := by
    rw [trimLeft, List.takeWhile_append_dropWhile]
  have before : withoutBlanks (cs.takeWhile isBlank) = [] :=
    withoutBlanks_eq_nil fun c hc => List.all_eq_true.1 List.all_takeWhile c hc
  rw [← whole, withoutBlanks_append, before, List.nil_append]

/-- Trimming takes away blanks only. -/
theorem withoutBlanks_trim (cs : List Char) : withoutBlanks (trim cs) = withoutBlanks cs := by
  rw [trim, withoutBlanks_trimRight, withoutBlanks_trimLeft]

theorem withoutBlanks_congr {cs ds : List Char} (h : trim cs = trim ds) :
    withoutBlanks cs = withoutBlanks ds := by
  rw [← withoutBlanks_trim cs, h, withoutBlanks_trim]

/-- Splitting at a blank takes away that blank only. -/
theorem flatMap_withoutBlanks_splitAt (blank : isBlank sep = true) (cs : List Char) :
    (splitAt sep cs).flatMap withoutBlanks = withoutBlanks cs := by
  induction cs with
  | nil => rfl
  | cons c cs ih =>
    rw [splitAt]
    split
    · rename_i same
      have dropped : withoutBlanks [sep] = [] :=
        withoutBlanks_eq_nil fun d hd => by rw [List.mem_singleton.1 hd, blank]
      rw [List.flatMap_cons, ih, eq_of_beq same, ← List.singleton_append, withoutBlanks_append,
        dropped]
      rfl
    · split
      · rename_i none
        exact (splitAt_ne_nil _ _ none).elim
      · rename_i piece pieces split
        rw [split, List.flatMap_cons] at ih
        rw [List.flatMap_cons, ← List.singleton_append, withoutBlanks_append, List.append_assoc, ih,
          ← withoutBlanks_append]
        rfl

/-- Joining lines puts the separator after each line but the last one. -/
theorem joinWith_concat (newline last : List Char) (lines : List (List Char)) :
    joinWith newline (lines ++ [last]) = lines.flatMap (· ++ newline) ++ last := by
  induction lines with
  | nil => rfl
  | cons line lines ih =>
    have step : joinWith newline (line :: (lines ++ [last])) =
        line ++ newline ++ joinWith newline (lines ++ [last]) := by
      cases lines <;> rfl
    rw [List.cons_append, step, ih, List.flatMap_cons, List.append_assoc _ _ last]

theorem joinWith_append (newline : List Char) {lines rest : List (List Char)} (some : lines ≠ [])
    (more : rest ≠ []) :
    joinWith newline (lines ++ rest) = joinWith newline lines ++ newline ++ joinWith newline rest := by
  obtain ⟨front, last, rfl⟩ : ∃ front last, lines = front ++ [last] :=
    ⟨_, _, (List.dropLast_concat_getLast some).symm⟩
  obtain ⟨line, rest, rfl⟩ := List.exists_cons_of_ne_nil more
  obtain ⟨before, joined⟩ := exists_joinWith_before newline front
  have single : joinWith newline [last] = last := rfl
  rw [List.append_assoc, List.singleton_append, joined, joined last [], joinWith_cons_cons, single]
  simp only [List.append_assoc]

end MonoTap.Text

namespace MonoTap.Listener

open Callback (Bucket)
open Text (isBlank isIndent joinWith splitAt trim trimRight withoutBlanks)

/-! ### The lines of a statement -/

/-- A line of a statement where it stands in a method: under the indentation `start`, with the same
text between the blanks at its ends. -/
structure Carries (start line moved : List Char) : Prop where
  text : trim moved = trim line
  indented : start <+: moved
  inLine : '\n' ∉ moved

/-- A line of a statement after its first one, where it stands in a method. -/
inductive CarriesLater (start : List Char) : List Char → List Char → Prop
  | blank {line : List Char} (blank : trim line = []) : CarriesLater start line []
  | solid {line moved : List Char} (solid : trim line ≠ []) (carries : Carries start line moved) :
      CarriesLater start line moved

/-- The lines that a statement is laid out in: one for each line of its text without trailing blanks. -/
def IsLaidOut (start text : List Char) (lines : List (List Char)) : Prop :=
  ∃ first rest moved others, splitAt '\n' (trimRight text) = first :: rest ∧
    lines = moved :: others ∧ Carries start first moved ∧
    List.Forall₂ (CarriesLater start) rest others

variable {start text line : List Char} {lines : List (List Char)}

theorem inLine_of_indents (indents : ∀ c ∈ start, isIndent c = true) : '\n' ∉ start := fun mem => by
  have wrong := indents _ mem
  simp [isIndent] at wrong

theorem allBlank_of_indents (indents : ∀ c ∈ start, isIndent c = true) :
    Text.allBlank start = true :=
  List.all_eq_true.2 fun c hc => Text.isBlank_of_isIndent (indents c hc)

theorem carriesLater_moveLine (indents : ∀ c ∈ start, isIndent c = true) (indent : Nat)
    (inLine : '\n' ∉ line) : CarriesLater start line (moveLine start indent line) := by
  have same := trim_moveLine (allBlank_of_indents indents) indent line
  by_cases blank : trimRight line = []
  · have gone : moveLine start indent line = [] := by rw [moveLine, blank]
    rw [gone] at same ⊢
    exact .blank same.symm
  · refine .solid (fun empty => blank ?_)
      ⟨same, ?_, inLine_moveLine (inLine_of_indents indents) inLine⟩
    · -- a line whose trimmed text is empty holds blanks only
      have none := Text.withoutBlanks_trim line
      rw [empty] at none
      refine Text.trimRight_of_allBlank (List.all_eq_true.2 fun c hc => ?_)
      have kept := List.filter_eq_nil_iff.1 none.symm c hc
      simpa using kept
    · rw [moveLine]
      split
      · rename_i empty
        exact (blank empty).elim
      · exact List.prefix_append _ _

/-- A statement is laid out line by line. -/
theorem isLaidOut_reindent (indents : ∀ c ∈ start, isIndent c = true) (indent : Nat)
    (text : List Char) : IsLaidOut start text (reindent start indent text) := by
  obtain ⟨first, rest, split⟩ := Text.exists_splitAt_eq_cons '\n' (trimRight text)
  have inLine : ∀ line ∈ first :: rest, '\n' ∉ line := fun line hline =>
    Text.not_mem_of_mem_splitAt (split ▸ hline)
  have feed := inLine_of_indents indents
  refine ⟨first, rest, start ++ trim first, rest.map (moveLine start indent), split, ?_, ⟨?_, ?_, ?_⟩, ?_⟩
  · rw [reindent, split]
  · rw [Text.trim_append_of_allBlank (allBlank_of_indents indents), Text.trim_trim]
  · exact List.prefix_append _ _
  · rw [List.mem_append, not_or]
    exact ⟨feed, fun mem => inLine first List.mem_cons_self
      ((List.dropWhile_sublist isBlank).mem (Text.mem_of_mem_trimRight mem))⟩
  · rw [List.forall₂_map_right_iff, List.forall₂_same]
    exact fun line hline => carriesLater_moveLine indents indent
      (inLine line (List.mem_cons_of_mem _ hline))

theorem CarriesLater.withoutBlanks_eq {moved : List Char} (h : CarriesLater start line moved) :
    withoutBlanks moved = withoutBlanks line := by
  cases h with
  | blank blank => exact Text.withoutBlanks_congr blank.symm
  | solid _ carries => exact Text.withoutBlanks_congr carries.text

/-- Without blanks, the lines that a statement is laid out in are its text. -/
theorem IsLaidOut.withoutBlanks_eq (h : IsLaidOut start text lines) :
    lines.flatMap withoutBlanks = withoutBlanks text := by
  obtain ⟨first, rest, moved, others, split, rfl, head, tail⟩ := h
  have same : others.flatMap withoutBlanks = rest.flatMap withoutBlanks := by
    clear split head
    induction tail with
    | nil => rfl
    | cons later _ ih => rw [List.flatMap_cons, List.flatMap_cons, later.withoutBlanks_eq, ih]
  rw [List.flatMap_cons, same, Text.withoutBlanks_congr head.text, ← List.flatMap_cons, ← split,
    Text.flatMap_withoutBlanks_splitAt rfl, Text.withoutBlanks_trimRight]

/-! ### The text of a call -/

/-- The text of the method for a bucket, with the given lines as its body. -/
def methodText (layout : Layout) (names : Names) (lines : Bucket → List (List Char))
    (bucket : Bucket) : List Char :=
  (if layout.override then layout.member ++ "@Override".toList ++ layout.newline else []) ++
    (layout.member ++ ("public void " ++ bucket.method ++ "(" ++ names.parameter bucket ++
      ") \x7b").toList ++ layout.newline) ++
    (lines bucket).flatMap (· ++ layout.newline) ++ (layout.member ++ ['}'])

/-- The text of a call whose methods have the given lines as their bodies. -/
def callText (layout : Layout) (names : Names) (lines : Bucket → List (List Char)) : List Char :=
  "tap(() -> new DefaultSignalListener<>() \x7b".toList ++ layout.newline ++
    joinWith (layout.newline ++ layout.newline)
      (layout.order.map (methodText layout names lines)) ++
    layout.newline ++ (layout.base ++ "\x7d)".toList)

/-- A method without blanks, from the texts of its statements. -/
def methodSkeleton (layout : Layout) (names : Names) (statements : List StatementText)
    (bucket : Bucket) : List Char :=
  (if layout.override then "@Override".toList else []) ++
    withoutBlanks ("public void " ++ bucket.method ++ "(" ++ names.parameter bucket ++
      ") \x7b").toList ++
    statements.flatMap (fun s => withoutBlanks s.text.toList) ++ ['}']

/-- The text of a call without its blanks, from the texts of the statements. -/
def skeleton (layout : Layout) (names : Names) (bodies : Bucket → List StatementText) : List Char :=
  "tap(()->newDefaultSignalListener<>()\x7b".toList ++
    layout.order.flatMap (fun bucket => methodSkeleton layout names (bodies bucket) bucket) ++
    "\x7d)".toList

variable {layout : Layout} {names : Names} {bodies : Bucket → List StatementText}

/-- The lines of the statements of a bucket. -/
def bodyLines (layout : Layout) (bodies : Bucket → List StatementText) (bucket : Bucket) :
    List (List Char) :=
  (bodies bucket).flatMap (·.lines layout.body)

theorem joinWith_methodLines (bucket : Bucket) :
    joinWith layout.newline (methodLines layout names (bodies bucket) bucket) =
      methodText layout names (bodyLines layout bodies) bucket := by
  have opened : (if layout.override then [layout.member ++ "@Override".toList] else []).flatMap
      (· ++ layout.newline) =
      if layout.override then layout.member ++ "@Override".toList ++ layout.newline else [] := by
    split
    · rw [List.flatMap_singleton]
    · rfl
  rw [methodLines, Text.joinWith_concat, List.flatMap_append, List.flatMap_append, opened,
    List.flatMap_singleton, methodText, bodyLines]

theorem methodLines_ne_nil (statements : List StatementText) (bucket : Bucket) :
    methodLines layout names statements bucket ≠ [] :=
  List.append_ne_nil_of_right_ne_nil _ (List.cons_ne_nil _ _)

theorem membersLines_ne_nil {order : List Bucket} (some : order ≠ []) :
    membersLines layout names bodies order ≠ [] := by
  cases order with
  | nil => exact (some rfl).elim
  | cons bucket buckets =>
    cases buckets with
    | nil => exact methodLines_ne_nil _ bucket
    | cons => exact List.append_ne_nil_of_left_ne_nil (methodLines_ne_nil _ bucket) _

/-- The methods stand in their order, with an empty line between two of them. -/
theorem joinWith_membersLines (order : List Bucket) :
    joinWith layout.newline (membersLines layout names bodies order) =
      joinWith (layout.newline ++ layout.newline)
        (order.map (methodText layout names (bodyLines layout bodies))) := by
  fun_induction membersLines layout names bodies order with
  | case1 => rfl
  | case2 bucket => rw [joinWith_methodLines]; rfl
  | case3 bucket buckets more ih =>
    have some : membersLines layout names bodies buckets ≠ [] := membersLines_ne_nil more
    obtain ⟨line, lines, split⟩ := List.exists_cons_of_ne_nil some
    obtain ⟨text, texts, split'⟩ : ∃ text texts,
        buckets.map (methodText layout names (bodyLines layout bodies)) = text :: texts :=
      List.exists_cons_of_ne_nil fun none => more (List.map_eq_nil_iff.1 none)
    rw [Text.joinWith_append _ (methodLines_ne_nil _ _) (List.cons_ne_nil _ _), joinWith_methodLines,
      split, Text.joinWith_cons_cons, ← split, ih, List.map_cons, split', Text.joinWith_cons_cons]
    simp only [List.nil_append, List.append_assoc]

/-- The text of a call holds the methods and nothing beside them. -/
theorem toList_render (some : layout.order ≠ []) : (render layout names bodies).toList =
    callText layout names (bodyLines layout bodies) := by
  have members : membersLines layout names bodies layout.order ≠ [] := membersLines_ne_nil some
  unfold render callText callLines
  generalize "tap(() -> new DefaultSignalListener<>() \x7b".toList = opening
  generalize "\x7d)".toList = closing
  rw [String.toList_ofList, Text.joinWith_concat, List.flatMap_cons]
  have inner : joinWith layout.newline (membersLines layout names bodies layout.order ++ [[]]) =
      (membersLines layout names bodies layout.order).flatMap (· ++ layout.newline) := by
    rw [Text.joinWith_concat, List.append_nil]
  rw [← inner, Text.joinWith_append _ members (List.cons_ne_nil _ _), joinWith_membersLines]
  simp only [joinWith, List.append_assoc, List.append_nil]

/-! ### Without blanks -/

theorem withoutBlanks_joinWith {sep : List Char} (blank : withoutBlanks sep = [])
    (pieces : List (List Char)) :
    withoutBlanks (joinWith sep pieces) = pieces.flatMap withoutBlanks := by
  induction pieces with
  | nil => rfl
  | cons piece pieces ih =>
    cases pieces with
    | nil => simp [joinWith]
    | cons next pieces =>
      rw [Text.joinWith_cons_cons, Text.withoutBlanks_append, Text.withoutBlanks_append, blank, ih]
      simp

/-- The text of a call without its blanks is the skeleton with the statements in it. -/
theorem withoutBlanks_callText {lines : Bucket → List (List Char)}
    (base : ∀ c ∈ layout.base, isIndent c = true) (step : ∀ c ∈ layout.step, isIndent c = true)
    (newline : withoutBlanks layout.newline = [])
    (body : ∀ bucket, (lines bucket).flatMap withoutBlanks =
      (bodies bucket).flatMap fun s => withoutBlanks s.text.toList) :
    withoutBlanks (callText layout names lines) = skeleton layout names bodies := by
  have indents {cs : List Char} (h : ∀ c ∈ cs, isIndent c = true) : withoutBlanks cs = [] :=
    Text.withoutBlanks_eq_nil fun c hc => Text.isBlank_of_isIndent (h c hc)
  have member : withoutBlanks layout.member = [] := by
    rw [Layout.member, Text.withoutBlanks_append, indents base, indents step]
    rfl
  have method (bucket : Bucket) : withoutBlanks (methodText layout names lines bucket) =
      methodSkeleton layout names (bodies bucket) bucket := by
    unfold methodText methodSkeleton
    generalize ("public void " ++ bucket.method ++ "(" ++ names.parameter bucket ++ ") \x7b").toList = head
    have mark : withoutBlanks "@Override".toList = "@Override".toList := by decide
    have opened : withoutBlanks
        (if layout.override then layout.member ++ "@Override".toList ++ layout.newline else []) =
        if layout.override then "@Override".toList else [] := by
      split
      · rw [Text.withoutBlanks_append, Text.withoutBlanks_append, member, newline, mark, List.append_nil,
          List.nil_append]
      · rfl
    have line (cs : List Char) : withoutBlanks (cs ++ layout.newline) = withoutBlanks cs := by
      rw [Text.withoutBlanks_append, newline, List.append_nil]
    have closed : withoutBlanks (layout.member ++ ['}']) = ['}'] := by
      rw [Text.withoutBlanks_append, member]
      rfl
    rw [Text.withoutBlanks_append, Text.withoutBlanks_append, Text.withoutBlanks_append, opened, line,
      Text.withoutBlanks_append, member, Text.withoutBlanks_flatMap, closed, ← body, List.nil_append]
    simp only [line]
  have opening : withoutBlanks "tap(() -> new DefaultSignalListener<>() \x7b".toList =
      "tap(()->newDefaultSignalListener<>()\x7b".toList := by decide
  have closing : withoutBlanks "\x7d)".toList = "\x7d)".toList := by decide
  unfold callText skeleton
  generalize "tap(() -> new DefaultSignalListener<>() \x7b".toList = first at opening ⊢
  generalize "tap(()->newDefaultSignalListener<>()\x7b".toList = first' at opening ⊢
  generalize "\x7d)".toList = last at closing ⊢
  have between : withoutBlanks (layout.newline ++ layout.newline) = [] := by
    rw [Text.withoutBlanks_append, newline, List.append_nil]
  simp only [Text.withoutBlanks_append, opening, newline, closing, indents base,
    withoutBlanks_joinWith between, List.flatMap_map, method, List.append_nil, List.nil_append]

/-- The text of a listener holds its methods in their order, each once. The body of a method is made of
the lines of its statements, in order: each has one line for each line of its text, with the same text
between blanks, and none of them holds a line feed. Without its blanks the text is the skeleton with the
statements in place. -/
theorem render_line_by_line (layout : Layout) (names : Names) (bodies : Bucket → List StatementText)
    (base : ∀ c ∈ layout.base, isIndent c = true) (step : ∀ c ∈ layout.step, isIndent c = true)
    (newline : layout.newline = ['\n'] ∨ layout.newline = ['\r', '\n'])
    (order : layout.order.Perm Bucket.all) :
    (∀ bucket, layout.order.count bucket = 1) ∧
    (∃ lines : Bucket → List (List Char),
      (render layout names bodies).toList = callText layout names lines ∧
      ∀ bucket, ∃ parts, lines bucket = parts.flatten ∧
        List.Forall₂ (fun s part => IsLaidOut layout.body s.text.toList part) (bodies bucket) parts) ∧
    withoutBlanks (render layout names bodies).toList = skeleton layout names bodies := by
  have body : ∀ c ∈ layout.body, isIndent c = true := by
    simp only [Layout.body, Layout.member, List.mem_append]
    rintro c ((h | h) | h)
    · exact base c h
    · exact step c h
    · exact step c h
  have laid (s : StatementText) : IsLaidOut layout.body s.text.toList (s.lines layout.body) :=
    isLaidOut_reindent body s.indent s.text.toList
  have some : layout.order ≠ [] := fun none => by
    rw [none] at order
    exact absurd order.length_eq (by decide)
  have whole : (render layout names bodies).toList =
      callText layout names (bodyLines layout bodies) := toList_render some
  refine ⟨fun bucket => ?_, ⟨bodyLines layout bodies, whole, fun bucket => ?_⟩, ?_⟩
  · rw [order.count_eq]
    cases bucket <;> rfl
  · refine ⟨(bodies bucket).map (·.lines layout.body), by rw [bodyLines, List.flatMap_def], ?_⟩
    rw [List.forall₂_map_right_iff, List.forall₂_same]
    exact fun s _ => laid s
  · rw [whole]
    refine withoutBlanks_callText base step ?_ fun bucket => ?_
    · rcases newline with h | h <;> rw [h] <;> decide
    · rw [bodyLines, List.flatMap_assoc]
      exact congrArg (List.flatMap · _) (funext fun s => (laid s).withoutBlanks_eq)

/-- A statement of four lines, one of them blank, whose lines end with a carriage return and a line feed. -/
theorem render_line_by_line_of_returns :
    let layout : Layout := ⟨['\t'], [' ', ' '], [.error, .value, .termination], true, ['\r', '\n']⟩
    let names : Names := ⟨"String", "v", "e", "terminationType"⟩
    let bodies : Bucket → List StatementText := fun
      | .value => [⟨"call(a, // c \r\n\r\n        b,\r\n  v); \r\n", 4⟩, ⟨"g(v);", 4⟩]
      | _ => []
    ((∀ c ∈ layout.base, isIndent c = true) ∧ (∀ c ∈ layout.step, isIndent c = true) ∧
      (layout.newline = ['\n'] ∨ layout.newline = ['\r', '\n']) ∧ layout.order.Perm Bucket.all) ∧
    (∃ lines : Bucket → List (List Char),
      (render layout names bodies).toList = callText layout names lines ∧
      ∀ bucket, ∃ parts, lines bucket = parts.flatten ∧
        List.Forall₂ (fun s part => IsLaidOut layout.body s.text.toList part) (bodies bucket) parts) ∧
    (bodies .value).map (·.lines layout.body) =
      [["\t    call(a, // c", "", "\t        b,", "\t    v);"].map String.toList,
        ["\t    g(v);".toList]] := by
  intro layout names bodies
  have base : ∀ c ∈ layout.base, isIndent c = true := by simp [layout, isIndent]
  have step : ∀ c ∈ layout.step, isIndent c = true := by simp [layout, isIndent]
  have order : layout.order.Perm Bucket.all := by decide
  have known := render_line_by_line layout names bodies base step (.inr rfl) order
  exact ⟨⟨base, step, .inr rfl, order⟩, known.2.1, by decide +kernel⟩

end MonoTap.Listener

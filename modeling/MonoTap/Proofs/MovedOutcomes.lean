import MonoTap.Proofs.Acceptance
import MonoTap.Proofs.Embedding
import MonoTap.Proofs.Mentions
import MonoTap.Proofs.MovedLines
import MonoTap.Proofs.MovedSites

/-!
# Outcomes and carriage returns

With carriage returns put in, the statements of a call site go to the same methods, and the site has the
same outcome: its replacement has the carriage returns, or it stays for the same reason.
-/

set_option autoImplicit false

namespace MonoTap.Callback

open Text (Source crlfText)

variable {s : Source} {l m : List Statement} {p : Parameters}

/-! ### Statements -/

theorem Statement.Moved.uses {a b : Statement} (h : a.Moved s b) (binding : Binding) :
    b.uses binding.crlf = a.uses binding := by
  rw [Statement.uses, h.references]
  rfl

theorem Statement.Moved.alike {a b : Statement} (h : a.Moved s b) : a.Alike b := by
  refine ⟨h.kind.symm, h.references.symm, ?_⟩
  rw [h.guard]
  cases a.guard with
  | none => exact .none
  | some g => exact .some ⟨rfl, rfl, rfl, rfl⟩

/-- The statements of a callback go to the same buckets. -/
theorem classify_moved (h : List.Forall₂ (Statement.Moved s) l m) (body : List Int) :
    classify p.crlf ⟨m⟩ body = classify p ⟨l⟩ body := by
  have params : p.Alike p.crlf := ⟨rfl, rfl⟩
  have all : List.Forall₂ Statement.Alike l m := h.imp fun _ _ own => own.alike
  rw [classify_alike all params]

end MonoTap.Callback

namespace MonoTap

open Callback (Bucket Parameters Statement)
open Text (Source crlfText crlfText_append)

variable {s : Source} {a b : CallSite} {settings : Settings}

/-! ### Outcomes -/

/-- The message with a carriage return put before each line feed. -/
def Diagnostic.crlf (d : Diagnostic) : Diagnostic :=
  { d with message := crlfText d.message }

/-- The replacement with a carriage return put before each line feed. -/
def Replacement.crlf (r : Replacement) : Replacement :=
  { r with text := crlfText r.text, notes := r.notes.map Diagnostic.crlf }

/-- The outcome with a carriage return put before each line feed. -/
def Outcome.crlf (o : Outcome) : Outcome :=
  ⟨o.line, (o.result.map Replacement.crlf).mapError Diagnostic.crlf⟩

/-- The reason with a carriage return put before each line feed. -/
def UnknownElement.crlf : UnknownElement → UnknownElement
  | .unresolvedReceiver => .unresolvedReceiver
  | .rawReceiver name => .rawReceiver (crlfText name)
  | .abstractArgument => .abstractArgument

theorem UnknownElement.message_crlf (reason : UnknownElement) (receiver : String) :
    reason.crlf.message (crlfText receiver) = crlfText (reason.message receiver) := by
  have named := Text.crlfText_of_not_mem (s := "receiver '") (by decide)
  cases reason with
  | unresolvedReceiver =>
    have opening := Text.crlfText_of_not_mem (s := "cannot resolve the type of receiver '") (by decide)
    have closing := Text.crlfText_of_not_mem (s := "'") (by decide)
    show "cannot resolve the type of receiver '" ++ crlfText receiver ++ "'" =
      crlfText ("cannot resolve the type of receiver '" ++ receiver ++ "'")
    rw [crlfText_append, crlfText_append, opening, closing]
  | rawReceiver name =>
    have between := Text.crlfText_of_not_mem (s := "' has raw type ") (by decide)
    show "receiver '" ++ crlfText receiver ++ "' has raw type " ++ crlfText name =
      crlfText ("receiver '" ++ receiver ++ "' has raw type " ++ name)
    rw [crlfText_append, crlfText_append, crlfText_append, named, between]
  | abstractArgument =>
    have closing := Text.crlfText_of_not_mem (s := "' has no concrete element type") (by decide)
    show "receiver '" ++ crlfText receiver ++ "' has no concrete element type" =
      crlfText ("receiver '" ++ receiver ++ "' has no concrete element type")
    rw [crlfText_append, crlfText_append, named, closing]

/-! ### Names -/

theorem contains_crlf {taken taken' : List String} (same : taken'.Perm (taken.map crlfText))
    {name : String} (inLine : '\n' ∉ name.toList) : taken'.contains name = taken.contains name := by
  rw [Bool.eq_iff_iff, List.contains_iff_mem, List.contains_iff_mem, same.mem_iff, List.mem_map]
  constructor
  · rintro ⟨other, mem, moved⟩
    rwa [← (Text.crlfText_eq_iff inLine).1 moved]
  · exact fun mem => ⟨name, mem, Text.crlfText_of_not_mem inLine⟩

theorem inLine_numbered {base : String} (inLine : '\n' ∉ base.toList) (n : Nat) :
    '\n' ∉ (base ++ toString n).toList := by
  have written : (toString n).toList = Nat.toDigits 10 n := Nat.toList_repr
  rw [String.toList_append, written, List.mem_append, not_or]
  refine ⟨inLine, fun mem => ?_⟩
  have digit := Nat.isDigit_of_mem_toDigits (by decide) (by decide) mem
  cases digit

theorem freshName_crlf {taken taken' : List String} (same : taken'.Perm (taken.map crlfText))
    {preferred : String} (inLine : '\n' ∉ preferred.toList) :
    freshName taken' preferred = freshName taken preferred := by
  have length : taken'.length = taken.length := by rw [same.length_eq, List.length_map]
  have found : ((List.range (taken.length + 1)).map fun k => preferred ++ toString (k + 1)).find?
        (!taken'.contains ·) =
      ((List.range (taken.length + 1)).map fun k => preferred ++ toString (k + 1)).find?
        (!taken.contains ·) := by
    refine List.find?_congr fun name h => ?_
    obtain ⟨k, _, rfl⟩ := List.mem_map.1 h
    rw [contains_crlf same (inLine_numbered inLine _)]
  rw [freshName, contains_crlf same inLine, numberedName, length, found, freshName, numberedName]

theorem crlfText_freshName (taken : List String) {preferred : String}
    (inLine : '\n' ∉ preferred.toList) :
    crlfText (freshName taken preferred) = freshName taken preferred := by
  refine Text.crlfText_of_not_mem ?_
  rcases freshName_cases taken preferred with same | ⟨n, same⟩
  · rwa [same]
  · rw [same]
    exact inLine_numbered inLine n

namespace CallSite

/-! ### A site -/

theorem Moved.elementType (h : a.Moved s b) :
    b.elementType = (a.elementType.map crlfText).mapError UnknownElement.crlf := by
  have declared : (b.parameters.value.type).filter (fun t => !t.isEmpty && t != "var") =
      ((a.parameters.value.type).filter fun t => !t.isEmpty && t != "var").map crlfText := by
    rw [h.parameters]
    show (a.parameters.value.type.map crlfText).filter _ = _
    cases a.parameters.value.type with
    | none => rfl
    | some type =>
      have empty : (crlfText type).isEmpty = type.isEmpty := by
        rw [Bool.eq_iff_iff, String.isEmpty_iff, String.isEmpty_iff]
        exact Text.crlfText_eq_iff (by decide)
      have other : (crlfText type != "var") = (type != "var") :=
        congrArg not (Text.beq_crlfText (by decide) type)
      rw [Option.map_some, Option.filter_some, empty, other, Option.filter_some]
      split <;> rfl
  have fallback (reason : UnknownElement) :
      ((((a.parameters.value.type).filter fun t => !t.isEmpty && t != "var").map crlfText).map
          Except.ok).getD (.error reason.crlf) =
        (((((a.parameters.value.type).filter fun t => !t.isEmpty && t != "var").map
          Except.ok).getD (.error reason)).map crlfText).mapError UnknownElement.crlf := by
    cases (a.parameters.value.type).filter fun t => !t.isEmpty && t != "var" <;> rfl
  rw [CallSite.elementType, declared, h.receiverType, CallSite.elementType]
  cases a.receiverType with
  | none => exact fallback .unresolvedReceiver
  | some t =>
    obtain ⟨name, arguments⟩ := t
    match arguments with
    | some argument :: _ => rfl
    | none :: _ => exact fallback .abstractArgument
    | [] => exact fallback (.rawReceiver name)

theorem Moved.names (h : a.Moved s b) (inLine : '\n' ∉ settings.terminationName.toList)
    (elementType : String) :
    b.names settings (crlfText elementType) = (a.names settings elementType).crlf := by
  have taken : b.takenNames.Perm (a.takenNames.map crlfText) := by
    rw [takenNames, h.parameters]
    exact .cons _ (.cons _ h.reservedNames)
  rw [CallSite.names, freshName_crlf taken inLine, h.parameters, CallSite.names, Listener.Names.crlf,
    crlfText_freshName _ inLine]
  rfl

theorem Moved.layout (h : a.Moved s b) : b.layout settings = (a.layout settings).crlf := by
  rw [CallSite.layout, h.indentText, h.newline.2]
  rfl

theorem Moved.scopeNotes (h : a.Moved s b) (bucket : Bucket) {as bs : List Statement}
    (moved : List.Forall₂ (Statement.Moved s) as bs) :
    b.scopeNotes bucket bs = (a.scopeNotes bucket as).map Diagnostic.crlf := by
  have owns (p : Callback.Binding) : b.owns bucket p.crlf = a.owns bucket p := by
    cases bucket <;> simp only [CallSite.owns, ownParameter?, h.parameters] <;> rfl
  have note {t u : Statement} (own : t.Moved s u) (p : Callback.Binding) :
      b.scopeNote bucket u p.crlf = (a.scopeNote bucket t p).crlf := by
    have named : bucket.method.toList.contains '\n' = false := by cases bucket <;> decide
    have method := Text.crlfText_of_not_mem (s := bucket.method) (by
      rw [← List.contains_iff_mem, named]
      exact Bool.false_ne_true)
    have opening := Text.crlfText_of_not_mem (s := "statement placed in ") (by decide)
    have between := Text.crlfText_of_not_mem (s := " references '") (by decide)
    have closing := Text.crlfText_of_not_mem (s := "', which is not a parameter there") (by decide)
    rw [scopeNote, scopeNote, Diagnostic.crlf, h.file, own.line]
    simp only [crlfText_append, opening, method, between, closing]
    rfl
  induction moved with
  | nil => rfl
  | @cons t u as bs own _ ih =>
    have passes : ((fun p => !b.owns bucket p && u.uses p) ∘ Callback.Binding.crlf) =
        fun p => !a.owns bucket p && t.uses p := by
      funext p
      rw [Function.comp_apply, owns, own.uses]
    have pair : [b.parameters.value, b.parameters.error] =
        [a.parameters.value, a.parameters.error].map Callback.Binding.crlf := by
      rw [h.parameters]
      rfl
    rw [CallSite.scopeNotes] at ih ⊢
    rw [CallSite.scopeNotes] at ih ⊢
    rw [List.flatMap_cons, ih, List.flatMap_cons, List.map_append, pair, List.filter_map, passes,
      List.map_map, List.map_map]
    exact congrArg (· ++ _) (List.map_congr_left fun p _ => note own p)

theorem Moved.bodies (h : a.Moved s b) (buckets : Callback.Buckets) :
    Alike (fun f g => ∀ bucket, List.Forall₂ (Statement.Moved s) (f bucket) (g bucket))
      (a.bodies buckets) (b.bodies buckets) := by
  have each (positions : List Int) := Callback.mapM_get_related h.statements positions
  refine (each _).bind fun _ _ value => (each _).bind fun _ _ error => (each _).bind
    fun _ _ termination => .ok fun bucket => ?_
  cases bucket with
  | value => exact value
  | error => exact error
  | termination => exact termination

/-- What a site is replaced by. -/
theorem Moved.replacement (h : a.Moved s b) (step : '\n' ∉ settings.indent.toList)
    (inLine : '\n' ∉ settings.terminationName.toList) (buckets : Callback.Buckets)
    (elementType : String) :
    Alike (fun r r' => r' = r.crlf) (a.replacement settings buckets elementType)
      (b.replacement settings buckets (crlfText elementType)) := by
  refine (h.bodies buckets).bind fun f g moved => .ok ?_
  have texts (bucket : Bucket) : List.Forall₂ Listener.StatementText.Returned
      ((f bucket).map fun t => ⟨t.text, t.indent⟩) ((g bucket).map fun t => ⟨t.text, t.indent⟩) := by
    rw [List.forall₂_map_left_iff, List.forall₂_map_right_iff]
    exact (moved bucket).imp fun t u own => ⟨own.text, own.indent⟩
  have newline : (a.layout settings).newline = ['\n'] := by
    rw [CallSite.layout, h.newline.1]
    rfl
  have text : Listener.render (a.layout settings).crlf (a.names settings elementType).crlf _ = _ :=
    Listener.render_crlf newline h.inLine step texts
  have notes : (Bucket.all.flatMap fun bucket => b.scopeNotes bucket (g bucket)) =
      (Bucket.all.flatMap fun bucket => a.scopeNotes bucket (f bucket)).map Diagnostic.crlf := by
    rw [List.map_flatMap]
    exact congrArg (List.flatMap · Bucket.all)
      (funext fun bucket => h.scopeNotes bucket (moved bucket))
  rw [h.layout, h.names inLine, text, notes]
  rfl

/-- A site has the same outcome. -/
theorem Moved.attempt (h : a.Moved s b) (step : '\n' ∉ settings.indent.toList)
    (inLine : '\n' ∉ settings.terminationName.toList) :
    Alike (fun o o' => o' = o.crlf) (a.attempt settings) (b.attempt settings) := by
  have classified : Callback.classify b.parameters b.arena b.body =
      Callback.classify a.parameters a.arena a.body := by
    rw [h.parameters, h.body]
    exact Callback.classify_moved h.statements a.body
  rw [CallSite.attempt, CallSite.attempt, classified]
  refine (Alike.refl _).bind fun buckets _ same => ?_
  rw [← same, h.elementType]
  cases a.elementType with
  | error reason =>
    refine .ok ?_
    show (⟨b.line, .error ⟨b.file, b.line, reason.crlf.message b.receiver, .warning⟩⟩ : Outcome) = _
    rw [h.line, h.file, h.receiver, UnknownElement.message_crlf]
    rfl
  | ok elementType =>
    refine (h.replacement step inLine buckets elementType).bind fun r r' made => .ok ?_
    rw [made, h.line]
    rfl

end CallSite

/-! ### Calls that are no call sites -/

theorem Java.Kind.inLine_phrase (k : Java.Kind) : '\n' ∉ k.phrase.toList := by
  have none : k.phrase.toList.contains '\n' = false := by cases k <;> decide +kernel
  rw [← List.contains_iff_mem, none]
  exact Bool.false_ne_true

theorem UnsupportedCallback.inLine_message (reason : UnsupportedCallback) :
    '\n' ∉ reason.message.toList := by
  cases reason with
  | notLambda kind =>
    show '\n' ∉ ("callback is a " ++ kind.phrase ++ ", not a lambda expression").toList
    rw [String.toList_append, String.toList_append, List.mem_append, List.mem_append, not_or, not_or]
    exact ⟨⟨by decide, kind.inLine_phrase⟩, by decide⟩
  | parameterCount count =>
    show '\n' ∉ ("callback declares " ++ toString count ++
      " parameter(s), expected (value, error)").toList
    rw [String.toList_append, List.mem_append, not_or]
    exact ⟨inLine_numbered (by decide) count, by decide⟩
  | expressionBody => decide

/-! ### Call sites of a unit -/

section

open Java (CompilationUnit Cursor PlainArguments)

variable {text : String} (file : String)
  (clean : (CompilationUnit.ofString text).hasSyntaxErrors = false)
  (plain : PlainArguments text) (old : Text.newlineOf (Source.ofString text).toBytes = "\n")
  (new : Text.newlineOf (Source.ofString text).crlf.toBytes = "\r\n")
include clean plain old new

theorem siteOrOutcome_crlf {call : Cursor}
    (eligible : call ∈ eligibleCalls (CompilationUnit.ofString text)) :
    (∃ a b, siteOrOutcome (CompilationUnit.ofString text) file call = .inl a ∧
      siteOrOutcome (CompilationUnit.ofString text).crlf file (call.crlf (.ofString text)) = .inl b ∧
      a.Moved (.ofString text) b) ∨
    ∃ o : Outcome, siteOrOutcome (CompilationUnit.ofString text) file call = .inr o ∧
      siteOrOutcome (CompilationUnit.ofString text).crlf file (call.crlf (.ofString text)) =
        .inr o.crlf := by
  have belongs : (callbackOf call.node).Belongs text.toList := by
    obtain ⟨arguments, hargs, _, inside⟩ := mem_of_callbackOf eligible
    exact ((isCall_of_mem_eligibleCalls clean eligible).1.belongs.child hargs).child inside
  have moved := callbackParts_crlf (s := .ofString text) belongs
  rw [← callbackOf_crlf] at moved
  have line : callLine (CompilationUnit.ofString text).crlf.source
      (call.node.crlf (.ofString text)) =
        callLine (CompilationUnit.ofString text).source call.node := callLine_crlf call.node
  rw [siteOrOutcome, ofCall_eq, siteOrOutcome, ofCall_eq]
  cases parts : callbackParts (Source.ofString text) (callbackOf call.node) with
  | error reason =>
    have parts' : callbackParts (CompilationUnit.ofString text).crlf.source
        (callbackOf (call.crlf (.ofString text)).node) = .error reason := by
      rw [parts] at moved
      exact moved
    have known : callbackParts (CompilationUnit.ofString text).source (callbackOf call.node) =
      .error reason := parts
    rw [known, parts']
    refine .inr ⟨_, rfl, ?_⟩
    have message := Text.crlfText_of_not_mem reason.inLine_message
    show Sum.inr (⟨callLine _ (call.node.crlf _), .error ⟨file, callLine _ (call.node.crlf _),
      reason.message, .warning⟩⟩ : Outcome) = Sum.inr ⟨_, .error ⟨file, _, crlfText reason.message,
        .warning⟩⟩
    rw [line, message]
  | ok found =>
    obtain ⟨parameters, block⟩ := found
    have parts' : callbackParts (CompilationUnit.ofString text).crlf.source
        (callbackOf (call.crlf (.ofString text)).node) =
          .ok (parameters.map Callback.crlfParameter, block.crlf (.ofString text)) := by
      rw [parts] at moved
      exact moved
    have known : callbackParts (CompilationUnit.ofString text).source (callbackOf call.node) =
      .ok (parameters, block) := parts
    rw [known, parts']
    exact .inl ⟨_, _, rfl, rfl, moved_siteOf clean plain old new eligible parts⟩

/-- A unit has the same call sites, and the other eligible calls have the same outcomes. -/
theorem callSites_crlf :
    List.Forall₂ (CallSite.Moved (.ofString text))
        (callSites (CompilationUnit.ofString text) file).1
        (callSites (CompilationUnit.ofString text).crlf file).1 ∧
      (callSites (CompilationUnit.ofString text).crlf file).2 =
        (callSites (CompilationUnit.ofString text) file).2.map Outcome.crlf := by
  have each := fun call (h : call ∈ eligibleCalls (CompilationUnit.ofString text)) =>
    siteOrOutcome_crlf file clean plain old new h
  rw [callSites, callSites, eligibleCalls_crlf clean plain, List.map_map]
  dsimp only
  generalize eligibleCalls (CompilationUnit.ofString text) = calls at each
  induction calls with
  | nil => exact ⟨.nil, rfl⟩
  | cons call calls ih =>
    obtain ⟨sites, outcomes⟩ := ih fun other h => each other (List.mem_cons_of_mem call h)
    rw [List.map_cons, List.map_cons, Function.comp_apply]
    rcases each call List.mem_cons_self with ⟨a, b, left, right, own⟩ | ⟨o, left, right⟩
    · rw [left, right]
      exact ⟨.cons own sites, outcomes⟩
    · rw [left, right]
      exact ⟨sites, congrArg (o.crlf :: ·) outcomes⟩

end

end MonoTap

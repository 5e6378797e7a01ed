import MonoTap.Proofs.Sites
import MonoTap.Proofs.Splicing

/-!
# Edits in the statements of a site

Before a site is converted, the edits that lie in it are made in its statements. This always
succeeds, and in each statement exactly the edits that lie in it are made, once. Nothing but the
texts of the statements changes.
-/

set_option autoImplicit false

namespace MonoTap

open Callback (Arena Bucket Buckets NoStatement Parameters Resolution Slot Statement)
open Java (CompilationUnit Cursor Node Solid Spans)
open Text (Boundary Edit EndsSolid Overlap Source Spliced encode encodeChars inOrder)

/-- Edits of a text that can be made in its parts: they replace whole characters, at least one, and
are apart. -/
structure Pending (text : List Char) (edits : List Edit) : Prop where
  spans : ∀ e ∈ edits, ∃ start stop : Nat, e.start = start ∧ e.stop = stop ∧ Spans text start stop
  apart : edits.Pairwise Edit.Apart

theorem Pending.filter {text : List Char} {edits : List Edit} (h : Pending text edits)
    (keep : Edit → Bool) : Pending text (edits.filter keep) :=
  ⟨fun e he => h.spans e (List.mem_filter.1 he).1, h.apart.filter keep⟩

theorem Pending.wide {text : List Char} {edits : List Edit} (h : Pending text edits) :
    ∀ e ∈ edits, e.start < e.stop := by
  intro e he
  obtain ⟨start, stop, hstart, hstop, spans⟩ := h.spans e he
  have := spans.wide
  omega

variable {text : String} {edits : List Edit} {s : Statement}

/-- The characters between two offsets of a text. -/
theorem slice_eq_encodeChars {start stop : Nat} (h : Spans text.toList start stop) :
    ∃ front middle back, text.toList = front ++ (middle ++ back) ∧
      start = (encodeChars front).length ∧ stop = start + (encodeChars middle).length ∧
      (Source.ofString text).slice start stop = encodeChars middle := by
  obtain ⟨front, middle, back, split, first, second⟩ :=
    h.first.split h.last (Nat.le_of_lt h.wide)
  rw [Nat.zero_add] at first
  refine ⟨front, middle, back, split, first, second, ?_⟩
  rw [Source.slice_eq, Source.toBytes_ofString, Text.encode_eq, split]
  exact Text.encodeChars_between first second

/-- Edits that lie in a part of a text fit in it. -/
theorem Pending.fits (pending : Pending text.toList edits) {front middle back : List Char}
    {start stop : Nat} (split : text.toList = front ++ (middle ++ back))
    (first : start = (encodeChars front).length)
    (last : stop = start + (encodeChars middle).length) :
    ∀ e ∈ inOrder (edits.filter (·.within start stop)), e.Fits start middle := by
  intro e he
  obtain ⟨he, inside⟩ := List.mem_filter.1 (Text.mem_inOrder.1 he)
  obtain ⟨low, high, hlow, hhigh, spans⟩ := pending.spans e he
  simp only [Edit.within, Bool.and_eq_true, decide_eq_true_eq] at inside
  have wide := spans.wide
  have boundary {offset : Nat} (h : Boundary 0 text.toList offset) (lower : start ≤ offset)
      (upper : offset ≤ stop) : Boundary start middle offset := by
    rw [split] at h
    have rest := h.of_append (by omega)
    rw [Nat.zero_add, ← first] at rest
    exact rest.of_append_left (by omega)
  exact ⟨low, high, hlow, hhigh, by omega, boundary spans.first (by omega) (by omega),
    boundary spans.last (by omega) (by omega)⟩

/-- The text of a statement with those edits made that lie in it. -/
def textWith (source : List UInt8) (edits : List Edit) (s : Statement) : String :=
  if edits.any (·.within s.start s.stop) then
    match Text.sliceWithEdits source s.start s.stop edits with
    | .ok new => new
    | .error _ => s.text
  else s.text

theorem textWith_plain (source : List UInt8) (edits : List Edit) (s : Statement) :
    textWith source edits s.plain = textWith source edits s := rfl

/-- In a statement, the edits that lie in it are made. Its last line is not blank afterwards if no edit
ends with a blank line. -/
theorem embedInStatement_eq (pending : Pending text.toList edits)
    (quotes : s.Quotes text.toList (Source.ofString text)) :
    embedInStatement (Source.ofString text).toBytes edits s =
        .ok { s with text := textWith (Source.ofString text).toBytes edits s } ∧
      Spliced s.start (inOrder (edits.filter (·.within s.start s.stop)))
        ((Source.ofString text).slice s.start s.stop)
        (encode (textWith (Source.ofString text).toBytes edits s)) ∧
      ((∀ e ∈ edits, EndsSolid e.replacement.toList) →
        EndsSolid (textWith (Source.ofString text).toBytes edits s).toList) := by
  obtain ⟨front, middle, back, split, start, stop, slice⟩ :=
    slice_eq_encodeChars quotes.spans.toSpans
  have solid : EndsSolid middle := quotes.spans.endsSolid split start stop
  rw [embedInStatement, textWith]
  split
  · have wide := quotes.spans.wide
    have size : s.stop ≤ (Source.ofString text).toBytes.length := by
      have := quotes.spans.last.le.2
      rw [Source.toBytes_ofString, Text.encode_eq]
      omega
    obtain ⟨result, made, spliced⟩ := Text.sliceWithEdits_eq_ok (Nat.le_of_lt wide) size
      pending.wide pending.apart
    rw [← Source.slice_eq] at spliced
    have fits := pending.fits split start stop
    rw [slice] at spliced ⊢
    obtain ⟨ds, rfl⟩ := spliced.exists_chars fits
    rw [made, Text.decodeLossy_encodeChars]
    refine ⟨rfl, ?_, fun put => ?_⟩
    · dsimp only
      rw [Text.encode_ofList]
      exact spliced
    · dsimp only
      rw [String.toList_ofList]
      exact spliced.endsSolid fits
        (fun e he => put e (List.mem_filter.1 (Text.mem_inOrder.1 he)).1) solid
  · rename_i none
    have nothing : edits.filter (·.within s.start s.stop) = [] := by
      refine List.filter_eq_nil_iff.2 fun e he inside => none ?_
      exact List.any_eq_true.2 ⟨e, he, inside⟩
    have quoted : s.text = String.ofList middle := by
      rw [quotes.quoted, Source.textOf, slice, Text.decodeLossy_encodeChars]
    refine ⟨rfl, ?_, fun _ => ?_⟩
    · rw [nothing, Text.inOrder_nil, slice, quoted, Text.encode_ofList]
      exact .rest _ _
    · rw [quoted, String.toList_ofList]
      exact solid

/-! ### All statements of a site -/

namespace CallSite

/-- The site with other texts in its statements. -/
def withTexts (site : CallSite) (new : Statement → String) : CallSite :=
  { site with arena := ⟨site.arena.statements.map fun s => { s with text := new s }⟩ }

/-- The site with those edits made in its statements that lie inside it. -/
def refreshed (site : CallSite) (source : List UInt8) (edits : List Edit) : CallSite :=
  site.withTexts (textWith source (edits.filter site.encloses))

end CallSite

/-- Edits can be made in the statements of a site. -/
theorem embedEdits_eq_ok {site : CallSite} (pending : Pending text.toList edits)
    (quotes : ∀ s ∈ site.arena.statements, s.Quotes text.toList (Source.ofString text)) :
    embedEdits (Source.ofString text).toBytes edits site =
      .ok (site.refreshed (Source.ofString text).toBytes edits) := by
  rw [embedEdits, mapM_eq_ok_map fun s hs =>
    (embedInStatement_eq (pending.filter site.encloses) (quotes s hs)).1]
  rfl

section

variable {site : CallSite} {new : Statement → String}

theorem get?_withTexts (site : CallSite) (new : Statement → String) (i : Int) :
    (site.withTexts new).arena.get? i =
      (site.arena.get? i).map fun s => { s with text := new s } := by
  have size : (site.withTexts new).arena.size = site.arena.size := List.length_map ..
  have statements : (site.withTexts new).arena.statements =
      site.arena.statements.map fun s => { s with text := new s } := rfl
  rw [Arena.get?, Arena.get?, size, statements, List.getElem?_map, List.getElem?_map]
  split
  · rfl
  · split <;> rfl

theorem guardAt?_withTexts (i : Int) :
    (site.withTexts new).arena.guardAt? i = site.arena.guardAt? i := by
  rw [Arena.guardAt?, Arena.guardAt?, get?_withTexts]
  cases site.arena.get? i <;> rfl

/-- New texts in the statements leave their positions and guards as they are. -/
theorem covers_withTexts {body : List Int} (h : site.arena.Covers body) :
    (site.withTexts new).arena.Covers body := by
  have present {i : Int} (h : (site.arena.get? i).isSome) :
      ((site.withTexts new).arena.get? i).isSome := by
    rw [get?_withTexts, Option.isSome_map]
    exact h
  refine ⟨fun i hi => present (h.statement i hi), fun i hi j hj => present (h.branch i hi j ?_)⟩
  rw [Arena.branchesAt, guardAt?_withTexts] at hj
  exact hj

theorem leaves_withTexts (p : Parameters) (body : List Int) :
    Callback.leaves p (site.withTexts new).arena body = Callback.leaves p site.arena body := by
  refine congrArg (List.flatMap · body) (funext fun i => ?_)
  rw [Callback.leavesAt, Callback.leavesAt, guardAt?_withTexts]

end

/-! ### Pieces -/

/-- A part of the body of a method: the slot of the leaf that it comes from, its text, and the
indentation that the leaf had. -/
structure Piece where
  bucket : Bucket
  slot : Slot
  text : String
  indent : Nat

/-- The piece as a statement of a listener. -/
def Piece.emitted (q : Piece) : Listener.StatementText :=
  ⟨q.text, q.indent⟩

/-- The pieces in one bucket, in order. -/
def emittedIn (pieces : List Piece) (b : Bucket) : List Listener.StatementText :=
  (pieces.filter (·.bucket = b)).map Piece.emitted

/-- The pieces that the leaves of a callback become: one for each slot, with those of some edits made
that lie in the slot. The last line of a piece is not blank if no edit ends with a blank line. -/
structure Dealt (source : Source) (p : Parameters) (r : Resolution) (block : Node)
    (edits : List Edit) (pieces : List Piece) : Prop where
  slots : pieces.map Piece.slot = Callback.leafSlots source p r block
  spliced : ∀ q ∈ pieces, Spliced q.slot.start
    (inOrder (edits.filter (·.within q.slot.start q.slot.stop)))
    (source.slice q.slot.start q.slot.stop) (encode q.text)
  indent : ∀ q ∈ pieces, q.indent = (source.lineIndent q.slot.start).length
  solid : (∀ e ∈ edits, EndsSolid e.replacement.toList) → ∀ q ∈ pieces, EndsSolid q.text.toList

/-- The statements at assigned positions, as pieces. -/
theorem exists_pieces {arena : Arena} {assigned : List (Bucket × Int)} {slots : List Slot}
    {statement : Slot → Statement}
    (h : assigned.map (fun a => (arena.get? a.2).map Statement.plain) =
      slots.map fun s => some (statement s)) :
    ∃ pieces : List Piece, pieces.map Piece.slot = slots ∧
      (∀ q ∈ pieces, q.emitted = ⟨(statement q.slot).text, (statement q.slot).indent⟩) ∧
      ∀ b, (((assigned.filter (·.1 = b)).map Prod.snd).filterMap arena.get?).map
        (fun s => ⟨s.text, s.indent⟩) = emittedIn pieces b := by
  induction assigned generalizing slots with
  | nil =>
    cases List.map_eq_nil_iff.1 h.symm
    exact ⟨[], rfl, fun q hq => (by cases hq), fun b => rfl⟩
  | cons a assigned ih =>
    obtain ⟨s, slots, rfl, here, later⟩ := List.map_eq_cons_iff.1 h.symm
    obtain ⟨pieces, same, texts, bodies⟩ := ih later.symm
    obtain ⟨found, hfound, plain⟩ := Option.map_eq_some_iff.1 here.symm
    refine ⟨⟨a.1, s, (statement s).text, (statement s).indent⟩ :: pieces, ?_, ?_, fun b => ?_⟩
    · rw [List.map_cons, same]
    · intro q hq
      rcases List.mem_cons.1 hq with rfl | hq
      · rfl
      · exact texts q hq
    · have bodies := bodies b
      unfold emittedIn at bodies ⊢
      by_cases hb : a.1 = b
      · rw [List.filter_cons_of_pos (by exact decide_eq_true hb),
          List.filter_cons_of_pos (by exact decide_eq_true hb), List.map_cons,
          List.filterMap_cons, hfound, List.map_cons, List.map_cons, bodies, Piece.emitted, ← plain]
        rfl
      · rw [List.filter_cons_of_neg (by exact fun h => hb (of_decide_eq_true h)),
          List.filter_cons_of_neg (by exact fun h => hb (of_decide_eq_true h)), bodies]

theorem mapM_get {arena : Arena} {positions : List Int}
    (present : ∀ i ∈ positions, (arena.get? i).isSome) :
    positions.mapM arena.get = .ok (positions.filterMap arena.get?) := by
  induction positions with
  | nil => rfl
  | cons i positions ih =>
    obtain ⟨s, hs, hget⟩ := Arena.get_eq_ok_of_isSome (present i List.mem_cons_self)
    rw [List.mapM_cons, hs, ih fun j hj => present j (List.mem_cons_of_mem _ hj),
      List.filterMap_cons, hget]
    rfl

/-! ### Converting a site -/

/-- The statements in the buckets of a body. -/
theorem bodies_eq_ok {site : CallSite} {p : Parameters} (covered : site.arena.Covers site.body) :
    site.bodies (.ofAssignments (Callback.assigned p site.arena site.body)) =
      .ok fun b => (((Callback.assigned p site.arena site.body).filter (·.1 = b)).map
        Prod.snd).filterMap site.arena.get? := by
  have bucket (b : Bucket) :
      ((Buckets.ofAssignments (Callback.assigned p site.arena site.body)).get b).mapM
        site.arena.get = .ok ((((Callback.assigned p site.arena site.body).filter
          (·.1 = b)).map Prod.snd).filterMap site.arena.get?) := by
    rw [Buckets.get_ofAssignments]
    refine mapM_get fun i hi => covered.leaf p i ?_
    rw [← Callback.map_snd_assigned]
    exact (List.filter_sublist.map Prod.snd).subset hi
  have value := bucket .value
  have error := bucket .error
  have termination := bucket .termination
  unfold Buckets.get at value error termination
  rw [CallSite.bodies, value, error, termination]
  refine congrArg Except.ok (funext fun b => ?_)
  cases b <;> rfl

theorem exists_of_bodies {site : CallSite} {buckets : Buckets} {bodies : Bucket → List Statement}
    (settings : Settings) (elementType : String) (h : site.bodies buckets = .ok bodies) :
    ∃ replacement, site.replacement settings buckets elementType = .ok replacement ∧
      replacement.text = Listener.render (site.layout settings) (site.names settings elementType)
        fun b => (bodies b).map fun s => ⟨s.text, s.indent⟩ := by
  rw [CallSite.replacement, h]
  exact ⟨_, rfl, rfl⟩

/-- A site whose statements can be classified stays if the type of its elements is not known, and
becomes a listener call otherwise. -/
theorem attempt_eq {site : CallSite} {buckets : Buckets} (settings : Settings)
    (classified : Callback.classify site.parameters site.arena site.body = .ok buckets) :
    site.attempt settings =
      match site.elementType with
      | .error reason =>
        .ok ⟨site.line, .error ⟨site.file, site.line, reason.message site.receiver, .warning⟩⟩
      | .ok elementType => (site.replacement settings buckets elementType).map fun replacement =>
          ⟨site.line, .ok replacement⟩ := by
  rw [CallSite.attempt, classified]
  cases site.elementType with
  | error reason => rfl
  | ok elementType =>
    show (site.replacement settings buckets elementType >>= fun replacement =>
      pure (⟨site.line, .ok replacement⟩ : Outcome)) =
        (site.replacement settings buckets elementType).map fun replacement =>
          ⟨site.line, .ok replacement⟩
    cases site.replacement settings buckets elementType <;> rfl

/-- What becomes of a site of a callback: it stays if the type of its elements is not known, and else
it becomes the listener call whose methods hold the pieces of the callback. -/
def Settled (settings : Settings) (source : Source) (r : Resolution) (block : Node)
    (edits : List Edit) (site : CallSite) (outcome : Outcome) : Prop :=
  match site.elementType with
  | .error _ => outcome.converted = false
  | .ok elementType => ∃ replacement pieces, outcome.result = .ok replacement ∧
      Dealt source site.parameters r block edits pieces ∧
      replacement.text = Listener.render (site.layout settings) (site.names settings elementType)
        (emittedIn pieces)

section

variable {u : CompilationUnit} {file : String} {call : Cursor}
  {parameters : List (String × Option String)} {block : Node} {site : CallSite}

theorem IsSite.covers (h : IsSite u file call parameters block site) :
    site.arena.Covers site.body := by
  rw [h.same]
  exact (Callback.laid_arenaOf u.source _ _).covers

/-- The leaves of the body of a site are the leaves of the callback. -/
theorem IsSite.map_leaves (h : IsSite u file call parameters block site) :
    (Callback.leaves site.parameters site.arena site.body).map
        (fun i => (site.arena.get? i).map Statement.plain) =
      (Callback.leafSlots u.source site.parameters (scopeOf u parameters block) block).map fun s =>
        some (Callback.statementAt u.source (scopeOf u parameters block) s.start s.stop none) := by
  rw [h.same]
  exact Callback.map_leaves_arenaOf block

/-- With new texts in its statements, a site becomes a listener call of the new texts. -/
theorem IsSite.exists_replacement (h : IsSite u file call parameters block site)
    (new : Statement → String) (plain : ∀ s, new s.plain = new s) (settings : Settings)
    (elementType : String) :
    ∃ replacement pieces,
      (site.withTexts new).replacement settings (.ofAssignments (Callback.assigned site.parameters
        (site.withTexts new).arena site.body)) elementType = .ok replacement ∧
      pieces.map Piece.slot = Callback.leafSlots u.source site.parameters
        (scopeOf u parameters block) block ∧
      (∀ q ∈ pieces, q.emitted = ⟨new (Callback.statementAt u.source (scopeOf u parameters block)
        q.slot.start q.slot.stop none), (u.source.lineIndent q.slot.start).length⟩) ∧
      replacement.text = Listener.render (site.layout settings) (site.names settings elementType)
        (emittedIn pieces) := by
  have covered : (site.withTexts new).arena.Covers (site.withTexts new).body :=
    covers_withTexts h.covers
  have bodies := bodies_eq_ok (p := site.parameters) covered
  have positions : (Callback.assigned site.parameters (site.withTexts new).arena site.body).map
      (fun a => ((site.withTexts new).arena.get? a.2).map Statement.plain) =
      (Callback.leafSlots u.source site.parameters (scopeOf u parameters block) block).map fun s =>
        some { Callback.statementAt u.source (scopeOf u parameters block) s.start s.stop none with
          text := new (Callback.statementAt u.source (scopeOf u parameters block) s.start s.stop
            none) } := by
    have renewed (i : Int) : ((site.withTexts new).arena.get? i).map Statement.plain =
        ((site.arena.get? i).map Statement.plain).map fun s => { s with text := new s } := by
      rw [get?_withTexts]
      cases site.arena.get? i with
      | none => rfl
      | some s =>
        simp only [Option.map_some, plain s]
        rfl
    have found : ∀ positions : List Int,
        positions.map (fun i => ((site.withTexts new).arena.get? i).map Statement.plain) =
          (positions.map fun i => (site.arena.get? i).map Statement.plain).map
            (Option.map fun s => { s with text := new s }) := by
      intro positions
      rw [List.map_map]
      exact List.map_congr_left fun i _ => renewed i
    have leaves := found (Callback.leaves site.parameters site.arena site.body)
    rw [h.map_leaves, ← leaves_withTexts, ← Callback.map_snd_assigned, List.map_map,
      List.map_map] at leaves
    exact leaves
  obtain ⟨pieces, slots, texts, emitted⟩ := exists_pieces positions
  obtain ⟨replacement, made, text⟩ := exists_of_bodies settings elementType bodies
  refine ⟨replacement, pieces, made, slots, texts, ?_⟩
  rw [text]
  exact congrArg (Listener.render _ _) (funext emitted)

/-- Pieces whose texts are those of the slots of the leaves, with the edits in the site made, are dealt
out of the callback. -/
theorem IsSite.dealt {text : String}
    (clean : (CompilationUnit.ofString text).hasSyntaxErrors = false)
    (h : IsSite (CompilationUnit.ofString text) file call parameters block site)
    {edits : List Edit} (pending : Pending text.toList edits) {p : Parameters} {r : Resolution}
    {pieces : List Piece}
    (slots : pieces.map Piece.slot = Callback.leafSlots (Source.ofString text) p r block)
    (texts : ∀ q ∈ pieces, q.emitted =
      ⟨textWith (Source.ofString text).toBytes (edits.filter site.encloses)
        (Callback.statementAt (Source.ofString text) r q.slot.start q.slot.stop none),
        ((Source.ofString text).lineIndent q.slot.start).length⟩) :
    Dealt (Source.ofString text) p r block edits pieces := by
  have bounds := h.bounds clean
  have slot {q : Piece} (hq : q ∈ pieces) : Solid text.toList q.slot.start q.slot.stop ∧
      block.start ≤ q.slot.start ∧ q.slot.stop ≤ block.stop :=
    (Callback.leafSlots_spans (h.belongs clean)).1 q.slot (slots ▸ List.mem_map_of_mem hq)
  have same {q : Piece} (hq : q ∈ pieces) := congrArg Listener.StatementText.text (texts q hq)
  have quotes {q : Piece} (hq : q ∈ pieces) : (Callback.statementAt (Source.ofString text) r
      q.slot.start q.slot.stop none).Quotes text.toList (Source.ofString text) :=
    Callback.quotes_statementAt none (slot hq).1
  have embedded {q : Piece} (hq : q ∈ pieces) :=
    embedInStatement_eq (pending.filter site.encloses) (quotes hq)
  refine ⟨slots, fun q hq => ?_, fun q hq => ?_, fun put q hq => ?_⟩
  · have inside : edits.filter (·.within q.slot.start q.slot.stop) =
        (edits.filter site.encloses).filter (·.within q.slot.start q.slot.stop) := by
      rw [List.filter_filter]
      refine List.filter_congr fun e _ => ?_
      have within := slot hq
      rw [Bool.eq_iff_iff, Bool.and_eq_true, CallSite.encloses]
      simp only [Edit.within, Bool.and_eq_true, decide_eq_true_eq]
      omega
    rw [inside, show q.text = _ from same hq]
    exact (embedded hq).2.1
  · exact congrArg Listener.StatementText.indent (texts q hq)
  · rw [show q.text = _ from same hq]
    exact (embedded hq).2.2 fun e he => put e (List.mem_filter.1 he).1

/-- An eligible call with a callback is settled, whatever edits have been made before. -/
theorem IsSite.attempt_eq_ok {text : String}
    (clean : (CompilationUnit.ofString text).hasSyntaxErrors = false)
    (h : IsSite (CompilationUnit.ofString text) file call parameters block site)
    {edits : List Edit} (pending : Pending text.toList edits) (settings : Settings) :
    ∃ outcome,
      embedEdits (Source.ofString text).toBytes edits site =
        .ok (site.refreshed (Source.ofString text).toBytes edits) ∧
      (site.refreshed (Source.ofString text).toBytes edits).attempt settings = .ok outcome ∧
      Settled settings (Source.ofString text)
        (scopeOf (CompilationUnit.ofString text) parameters block) block edits site outcome := by
  have belongs := h.belongs clean
  have quotes : ∀ s ∈ site.arena.statements, s.Quotes text.toList (Source.ofString text) := by
    rw [h.same]
    exact fun s hs => Callback.quotes_of_mem_arenaOf belongs hs
  have embedded := embedEdits_eq_ok pending quotes
  let new := textWith (Source.ofString text).toBytes (edits.filter site.encloses)
  have classified : Callback.classify site.parameters (site.withTexts new).arena site.body =
      .ok (.ofAssignments (Callback.assigned site.parameters (site.withTexts new).arena site.body)) :=
    Callback.classify_eq_ok (covers_withTexts h.covers)
  have attempted := attempt_eq settings classified
  have sameType : (site.withTexts new).elementType = site.elementType := rfl
  rw [sameType] at attempted
  unfold Settled
  cases known : site.elementType with
  | error reason =>
    rw [known] at attempted
    exact ⟨_, embedded, attempted, rfl⟩
  | ok elementType =>
    obtain ⟨replacement, pieces, made, slots, texts, render⟩ :=
      h.exists_replacement new (textWith_plain _ _) settings elementType
    rw [known] at attempted
    dsimp only at attempted
    rw [made] at attempted
    exact ⟨_, embedded, attempted, replacement, pieces, rfl, h.dealt clean pending slots texts,
      render⟩

end

end MonoTap

import MonoTap.Proofs.Embedding

/-!
# Converting sites one after the other

A conversion takes the sites of a text in turn. It always comes to an end, since at every turn the
edits to make are apart: they are those of the sites converted so far that lie in no other one.
-/

set_option autoImplicit false

namespace MonoTap

open Java (CompilationUnit Cursor Node Spans)
open Text (Edit Overlap Source)

/-! ### Turns -/

/-- What a conversion did with one site, and how far it had come before. -/
structure Turn where
  site : CallSite
  before : Progress
  outcome : Outcome

/-- The edit that a turn adds, if the site was converted. -/
def Turn.edit? (t : Turn) : Option Edit :=
  match t.outcome.result with
  | .ok r => some (t.site.edit r.text)
  | .error _ => none

theorem Turn.edit?_eq_some_iff {t : Turn} {e : Edit} :
    t.edit? = some e ↔ ∃ r, t.outcome.result = .ok r ∧ e = t.site.edit r.text := by
  rw [edit?]
  split
  · rename_i r found
    rw [found]
    exact ⟨fun h => ⟨r, rfl, (Option.some.inj h).symm⟩, fun ⟨_, same, h⟩ => by cases same; rw [h]⟩
  · rename_i d found
    rw [found]
    exact ⟨fun h => (by cases h), fun ⟨_, h, _⟩ => (by cases h)⟩

/-- The edits of the sites that were converted. -/
def replacements (ts : List Turn) : List Edit :=
  ts.filterMap Turn.edit?

/-- The turns by which a conversion comes from one state to another. -/
inductive Run (settings : Settings) (source : List UInt8) : Progress → List Turn → Progress → Prop
  | done (p : Progress) : Run settings source p [] p
  | turn {p q : Progress} {site embedded : CallSite} {outcome : Outcome} {ts : List Turn}
      (embeds : embedEdits source p.edits site = .ok embedded)
      (settles : embedded.attempt settings = .ok outcome)
      (more : Run settings source (p.record site outcome) ts q) :
      Run settings source p (⟨site, p, outcome⟩ :: ts) q

variable {settings : Settings} {source : List UInt8} {p q : Progress} {ts : List Turn}

/-- The turns are those of the conversion. -/
theorem Run.foldlM_eq_ok (h : Run settings source p ts q) :
    (ts.map Turn.site).foldlM (Progress.advance settings source) p = .ok q := by
  induction h with
  | done p => rfl
  | turn embeds settles more ih =>
    rw [List.map_cons, List.foldlM_cons, Progress.advance, embeds]
    show (Except.mapError ConversionFailure.noStatement _ >>= _ : Except _ _) >>= _ = _
    rw [settles]
    exact ih

/-! ### Edits that lie in no other one -/

/-- Whether an edit lies in another one, after its first byte. -/
def Text.Edit.nested (a b : Edit) : Bool :=
  b.start < a.start && a.stop ≤ b.stop

/-- The edits that lie in no other one. -/
def topmost (es : List Edit) : List Edit :=
  es.filter fun e => !es.any e.nested

/-- An edit that lies in a later one or apart from it. -/
def Text.Edit.Precedes (a b : Edit) : Prop :=
  a.nested b = true ∨ a.Apart b

theorem Text.Edit.nested_iff {a b : Edit} :
    a.nested b = true ↔ b.start < a.start ∧ a.stop ≤ b.stop := by
  rw [nested, Bool.and_eq_true, decide_eq_true_eq, decide_eq_true_eq]

theorem mem_topmost {es : List Edit} {e : Edit} :
    e ∈ topmost es ↔ e ∈ es ∧ ∀ f ∈ es, e.nested f = false := by
  rw [topmost, List.mem_filter, Bool.not_eq_true', List.any_eq_false]
  exact and_congr_right fun _ => forall_congr' fun f => by rw [Bool.not_eq_true]

/-- Edits that lie in no other one are apart. -/
theorem topmost_pairwise {es : List Edit} (h : es.Pairwise Edit.Precedes) :
    (topmost es).Pairwise Edit.Apart := by
  refine (h.sublist List.filter_sublist).imp_of_mem fun {a b} ha hb precedes => ?_
  rcases precedes with nested | apart
  · rw [(mem_topmost.1 ha).2 b (mem_topmost.1 hb).1] at nested
    cases nested
  · exact apart

/-- One more edit takes the place of those that lie in it. -/
theorem topmost_concat {es : List Edit} {e : Edit} (wide : ∀ f ∈ es, f.start < f.stop)
    (own : e.start < e.stop) (precedes : ∀ f ∈ es, f.Precedes e) :
    topmost (es ++ [e]) = (topmost es).filter (fun f => !f.within e.start e.stop) ++ [e] := by
  have last : (!(es ++ [e]).any e.nested) = true := by
    rw [Bool.not_eq_true', List.any_eq_false]
    intro f hf nested
    have inside := Edit.nested_iff.1 nested
    rcases List.mem_append.1 hf with hf | hf
    · have := wide f hf
      rcases precedes f hf with other | apart
      · have := Edit.nested_iff.1 other
        omega
      · unfold Edit.Apart at apart
        omega
    · cases List.mem_singleton.1 hf
      omega
  have others : ∀ f ∈ es, (!(es ++ [e]).any f.nested) =
      (!f.within e.start e.stop && !es.any f.nested) := by
    intro f hf
    have same : f.nested e = f.within e.start e.stop := by
      have := wide f hf
      rw [Bool.eq_iff_iff, Edit.nested_iff, Edit.within, Bool.and_eq_true, decide_eq_true_eq,
        decide_eq_true_eq]
      rcases precedes f hf with nested | apart
      · have := Edit.nested_iff.1 nested
        omega
      · unfold Edit.Apart at apart
        omega
    rw [List.any_append, List.any_cons, List.any_nil, Bool.or_false, same, Bool.not_or,
      Bool.and_comm]
  rw [topmost, List.filter_append, List.filter_cons, last, if_pos rfl, List.filter_nil, topmost,
    List.filter_filter, List.filter_congr others]

/-! ### One turn -/

/-- Edits already made and sites still to be converted: all replace whole characters of the text, and
each lies in a later one or apart from it. -/
structure Followed (text : List Char) (past : List Edit) (sites : List CallSite) : Prop where
  spans : ∀ e ∈ past ++ sites.map (·.edit ""),
    ∃ start stop : Nat, e.start = start ∧ e.stop = stop ∧ Spans text start stop
  precedes : (past ++ sites.map (·.edit "")).Pairwise Edit.Precedes

variable {text : List Char} {past : List Edit} {site : CallSite} {sites : List CallSite}

theorem Followed.wide (h : Followed text past sites) {e : Edit}
    (he : e ∈ past ++ sites.map (·.edit "")) : e.start < e.stop := by
  obtain ⟨start, stop, hstart, hstop, spans⟩ := h.spans e he
  have := spans.wide
  omega

theorem Followed.pending (h : Followed text past sites) : Pending text (topmost past) := by
  refine ⟨fun e he => ?_, topmost_pairwise (List.pairwise_append.1 h.precedes).1⟩
  exact h.spans e (List.mem_append_left _ (mem_topmost.1 he).1)

/-- A site has been dealt with. -/
theorem Followed.next (h : Followed text past (site :: sites)) (outcome : Outcome) :
    Followed text (past ++ (Turn.edit? ⟨site, p, outcome⟩).toList) sites := by
  obtain ⟨before, after, across⟩ := List.pairwise_append.1 h.precedes
  obtain ⟨own, after⟩ := List.pairwise_cons.1 after
  cases result : outcome.result with
  | error d =>
    have none : Turn.edit? ⟨site, p, outcome⟩ = none := by rw [Turn.edit?, result]
    have fewer : (past ++ sites.map (·.edit "")).Sublist
        (past ++ (site :: sites).map (·.edit "")) :=
      (List.sublist_cons_self _ _).append_left past
    rw [none, Option.toList_none, List.append_nil]
    exact ⟨fun e he => h.spans e (fewer.subset he), h.precedes.sublist fewer⟩
  | ok r =>
    have some : Turn.edit? ⟨site, p, outcome⟩ = some (site.edit r.text) := by
      rw [Turn.edit?, result]
    have here : site.edit "" ∈ (site :: sites).map (·.edit "") :=
      List.mem_map_of_mem List.mem_cons_self
    rw [some, Option.toList_some]
    constructor
    · intro e he
      rw [List.append_assoc, List.singleton_append] at he
      rcases List.mem_append.1 he with he | he
      · exact h.spans e (List.mem_append_left _ he)
      · rcases List.mem_cons.1 he with rfl | he
        · exact h.spans (site.edit "") (List.mem_append_right _ here)
        · exact h.spans e (List.mem_append_right _ (List.mem_cons_of_mem _ he))
    · rw [List.append_assoc, List.singleton_append]
      refine List.pairwise_append.2 ⟨before, List.pairwise_cons.2 ⟨own, after⟩, ?_⟩
      intro e he f hf
      rcases List.mem_cons.1 hf with rfl | hf
      · exact across e he (site.edit "") here
      · exact across e he f (List.mem_cons_of_mem _ hf)

/-- After a turn the edits to make are again those that lie in no other one. -/
theorem Followed.record_edits (h : Followed text past (site :: sites))
    (edits : p.edits = topmost past) (outcome : Outcome) :
    (p.record site outcome).edits =
      topmost (past ++ (Turn.edit? ⟨site, p, outcome⟩).toList) := by
  have here : site.edit "" ∈ (site :: sites).map (·.edit "") :=
    List.mem_map_of_mem List.mem_cons_self
  rw [Progress.record, Turn.edit?]
  cases outcome.result with
  | error d => rw [Option.toList_none, List.append_nil, ← edits]
  | ok r =>
    have own : (site.edit r.text).start < (site.edit r.text).stop :=
      h.wide (e := site.edit "") (List.mem_append_right _ here)
    have precedes : ∀ f ∈ past, f.Precedes (site.edit r.text) := fun f hf =>
      (List.pairwise_append.1 h.precedes).2.2 f hf (site.edit "") here
    rw [Option.toList_some, topmost_concat (fun f hf => h.wide (List.mem_append_left _ hf)) own
      precedes, ← edits]
    rfl

/-! ### All turns -/

/-- A turn took a site and settled it. -/
def Turn.IsSettled (settings : Settings) (u : CompilationUnit) (file : String) (t : Turn) : Prop :=
  ∃ call parameters block, IsSite u file call parameters block t.site ∧
    Settled settings u.source (scopeOf u parameters block) block t.before.edits t.site t.outcome

/-- A site is converted exactly if the type of its elements is known. -/
theorem Turn.IsSettled.converted_iff {u : CompilationUnit} {file : String} {t : Turn}
    (h : t.IsSettled settings u file) :
    t.outcome.converted = true ↔ ∃ elementType, t.site.elementType = .ok elementType := by
  obtain ⟨call, parameters, block, _, settled⟩ := h
  unfold Settled at settled
  split at settled
  · rename_i reason unknown
    rw [settled, unknown]
    exact ⟨fun h => (by cases h), fun ⟨_, h⟩ => (by cases h)⟩
  · rename_i elementType known
    obtain ⟨replacement, _, result, _⟩ := settled
    rw [Outcome.converted, result]
    exact ⟨fun _ => ⟨elementType, known⟩, fun _ => rfl⟩

/-- What holds of the turns of a conversion that has come from some edits, those of sites converted
before, to its end. -/
structure Consistent (text : List Char) (past : List Edit) (ts : List Turn) (q : Progress) :
    Prop where
  followed : Followed text (past ++ replacements ts) []
  before : ∀ earlier t later, ts = earlier ++ t :: later →
    t.before.edits = topmost (past ++ replacements earlier)
  after : q.edits = topmost (past ++ replacements ts)

theorem Consistent.cons {t : Turn} (edits : t.before.edits = topmost past)
    (h : Consistent text (past ++ t.edit?.toList) ts q) : Consistent text past (t :: ts) q := by
  have all (us : List Turn) :
      past ++ replacements (t :: us) = past ++ t.edit?.toList ++ replacements us := by
    rw [List.append_assoc, replacements, List.filterMap_cons, ← replacements]
    cases t.edit? <;> rfl
  refine ⟨all ts ▸ h.followed, ?_, all ts ▸ h.after⟩
  intro earlier s later split
  cases earlier with
  | nil =>
    cases split
    rw [edits, replacements, List.filterMap_nil, List.append_nil]
  | cons first earlier =>
    cases split
    rw [all]
    exact h.before earlier s later rfl

/-- The conversion of a text as it begins. -/
def begun (u : CompilationUnit) (file : String) : Progress :=
  ⟨[], .start (.ofUnit u), (callSites u file).2.reverse⟩

/-- What comes of the state that a conversion ends in. -/
def concluded (u : CompilationUnit) (file text : String) (done : Progress) :
    Except ConversionFailure Conversion :=
  let outcomes := byLine done.outcomes.reverse
  if done.edits.isEmpty then .ok ⟨file, text, text, outcomes, []⟩
  else
    ((Text.applyEdits u.source.toBytes (done.imports.edits u.source ++ done.edits)).mapError
      .overlap).map fun converted =>
        ⟨file, text, String.ofList (Text.decodeLossy converted), outcomes, []⟩

theorem convertUnit_eq {u : CompilationUnit} {file text : String} {done : Progress}
    (folded : (innermostFirst (callSites u file).1).foldlM
      (Progress.advance settings u.source.toBytes) (begun u file) = .ok done) :
    convertUnit settings u file text = concluded u file text done := by
  have opened : convertUnit settings u file text =
      ((innermostFirst (callSites u file).1).foldlM (Progress.advance settings u.source.toBytes)
        (begun u file) >>= fun done =>
          if done.edits.isEmpty then
            pure ⟨file, text, text, byLine done.outcomes.reverse, []⟩
          else do
            let converted ← (Text.applyEdits u.source.toBytes
              (done.imports.edits u.source ++ done.edits)).mapError .overlap
            pure ⟨file, text, String.ofList (Text.decodeLossy converted),
              byLine done.outcomes.reverse, []⟩) := rfl
  rw [opened, folded, concluded]
  show (if done.edits.isEmpty = true then _ else _ : Except ConversionFailure Conversion) = _
  split
  · rfl
  · cases Text.applyEdits u.source.toBytes (done.imports.edits u.source ++ done.edits) <;> rfl

section

variable {text file : String} (clean : (CompilationUnit.ofString text).hasSyntaxErrors = false)
include clean

/-- Sites of a text can be converted one after the other. -/
theorem exists_run {sites : List CallSite} {past : List Edit} {p : Progress} (settings : Settings)
    (isSite : ∀ s ∈ sites, ∃ call parameters block,
      IsSite (CompilationUnit.ofString text) file call parameters block s)
    (followed : Followed text.toList past sites) (edits : p.edits = topmost past) :
    ∃ ts q, Run settings (Source.ofString text).toBytes p ts q ∧ ts.map Turn.site = sites ∧
      Consistent text.toList past ts q ∧
      ∀ t ∈ ts, t.IsSettled settings (CompilationUnit.ofString text) file := by
  induction sites generalizing past p with
  | nil =>
    refine ⟨[], p, .done p, rfl, ⟨?_, ?_, ?_⟩, fun t ht => (by cases ht)⟩
    · rw [replacements, List.filterMap_nil, List.append_nil]
      exact followed
    · intro earlier t later split
      cases earlier <;> cases split
    · rw [replacements, List.filterMap_nil, List.append_nil, edits]
  | cons site sites ih =>
    obtain ⟨call, parameters, block, own⟩ := isSite site List.mem_cons_self
    obtain ⟨outcome, embeds, settles, settled⟩ :=
      own.attempt_eq_ok clean (edits ▸ followed.pending) settings
    obtain ⟨ts, q, run, same, consistent, each⟩ := ih
      (fun s hs => isSite s (List.mem_cons_of_mem _ hs)) (followed.next (p := p) outcome)
      (followed.record_edits edits outcome)
    refine ⟨⟨site, p, outcome⟩ :: ts, q, .turn embeds settles run, ?_, .cons edits consistent, ?_⟩
    · rw [List.map_cons, same]
    · intro t ht
      rcases List.mem_cons.1 ht with rfl | ht
      · exact ⟨call, parameters, block, own, settled⟩
      · exact each t ht

theorem followed_callSites (file : String) :
    Followed text.toList []
      (innermostFirst (callSites (CompilationUnit.ofString text) file).1) := by
  rw [innermostFirst]
  constructor
  · intro e he
    rw [List.nil_append] at he
    obtain ⟨s, hs, rfl⟩ := List.mem_map.1 he
    obtain ⟨call, parameters, block, isSite⟩ := exists_isSite (List.mem_mergeSort.1 hs)
    exact ⟨s.start, s.stop, rfl, rfl, isSite.spans clean⟩
  · rw [List.nil_append, List.pairwise_map]
    refine (innermostFirst_pairwise clean).imp fun {a b} h => ?_
    unfold CallSite.Nested CallSite.Apart at h
    have split : (b.start < a.start ∧ a.stop ≤ b.stop) ∨
        (a.stop : Int) ≤ b.start ∨ (b.stop : Int) ≤ a.start := by omega
    refine split.imp (fun nested => Edit.nested_iff.2 ?_) id
    exact ⟨Int.ofNat_lt.2 nested.1, Int.ofNat_le.2 nested.2⟩

/-- A text without syntax errors is converted site by site, smaller sites first. -/
theorem exists_turns (settings : Settings) (file : String) :
    ∃ ts done, Run settings (Source.ofString text).toBytes
        (begun (CompilationUnit.ofString text) file) ts done ∧
      ts.map Turn.site = innermostFirst (callSites (CompilationUnit.ofString text) file).1 ∧
      Consistent text.toList [] ts done ∧
      (∀ t ∈ ts, t.IsSettled settings (CompilationUnit.ofString text) file) ∧
      convert settings file text = concluded (CompilationUnit.ofString text) file text done := by
  obtain ⟨ts, done, run, same, consistent, each⟩ := exists_run clean settings
    (fun s hs => exists_isSite (List.mem_mergeSort.1 hs)) (followed_callSites clean file)
    (p := begun (CompilationUnit.ofString text) file) rfl
  refine ⟨ts, done, run, same, consistent, each, ?_⟩
  have folded := run.foldlM_eq_ok
  rw [same] at folded
  rw [convert, clean, if_neg Bool.false_ne_true]
  exact convertUnit_eq folded

end

/-- The conversion of a text bears its name and keeps the text as it was. -/
theorem names_of_convert {file text : String} {r : Conversion}
    (h : convert settings file text = .ok r) : r.file = file ∧ r.before = text := by
  cases clean : (CompilationUnit.ofString text).hasSyntaxErrors with
  | true =>
    rw [convert, clean, if_pos rfl] at h
    cases h
    exact ⟨rfl, rfl⟩
  | false =>
    obtain ⟨_, done, _, _, _, _, result⟩ := exists_turns clean settings file
    rw [result, concluded] at h
    split at h
    · cases h
      exact ⟨rfl, rfl⟩
    · cases made : Text.applyEdits (CompilationUnit.ofString text).source.toBytes
        (done.imports.edits (CompilationUnit.ofString text).source ++ done.edits) with
      | error o =>
        rw [made] at h
        cases h
      | ok converted =>
        rw [made] at h
        cases h
        exact ⟨rfl, rfl⟩

end MonoTap

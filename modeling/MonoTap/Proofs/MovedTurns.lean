import MonoTap.Proofs.Insertions
import MonoTap.Proofs.MovedEdits
import MonoTap.Proofs.MovedOutcomes

/-!
# Turns and carriage returns

With carriage returns put in, a site that goes over several lines grows, and so it may be converted after
a site that it was converted before. Only sites apart from each other change places: what a site becomes
depends on the sites nested in it, and these always come before it. So each site has the same outcome.
-/

set_option autoImplicit false

namespace MonoTap.Text

variable {es fs : List Edit}

/-! ### Edits with different starts -/

theorem filter_start_perm (perm : es.Perm fs) (distinct : es.Pairwise fun a b => a.start ≠ b.start)
    (start : Int) : es.filter (·.start == start) = fs.filter (·.start == start) := by
  have found := perm.filter (·.start == start)
  have single := distinct.filter (·.start == start)
  have here : ∀ e ∈ es.filter (·.start == start), e.start = start := fun e he =>
    beq_iff_eq.1 (List.mem_filter.1 he).2
  generalize es.filter (·.start == start) = one at found single here
  match one, found, single, here with
  | [], found, _, _ => exact (List.nil_perm.1 found).symm
  | [e], found, _, _ => exact List.singleton_perm.1 found
  | a :: b :: _, _, single, here =>
    have other := (List.pairwise_cons.1 single).1 b List.mem_cons_self
    exact (other ((here a List.mem_cons_self).trans
      (here b (List.mem_cons_of_mem _ List.mem_cons_self)).symm)).elim

/-- The order in which edits with different starts are given makes no difference, also after others. -/
theorem inOrder_append_perm (perm : es.Perm fs)
    (distinct : es.Pairwise fun a b => a.start ≠ b.start) (before : List Edit) :
    inOrder (before ++ es) = inOrder (before ++ fs) := by
  refine inOrder_congr fun start => ?_
  rw [List.filter_append, List.filter_append, filter_start_perm perm distinct]

theorem sliceWithEdits_perm (perm : es.Perm fs)
    (distinct : es.Pairwise fun a b => a.start ≠ b.start) (bytes : List UInt8) (start stop : Int) :
    sliceWithEdits bytes start stop es = sliceWithEdits bytes start stop fs := by
  have same := inOrder_append_perm (perm.filter (·.within start stop)) (distinct.filter _) []
  rw [List.nil_append, List.nil_append] at same
  rw [sliceWithEdits, applyEdits, inOrder_map_relativeTo, same, ← inOrder_map_relativeTo,
    sliceWithEdits, applyEdits]

end MonoTap.Text

namespace MonoTap

open Callback (Statement)
open Java (CompilationUnit PlainArguments Spans)
open Text (Edit Source crlfText)

/-! ### Edits in statements -/

theorem Pending.distinct {text : List Char} {edits : List Edit} (h : Pending text edits) :
    edits.Pairwise fun a b => a.start ≠ b.start := by
  refine h.apart.imp_of_mem fun {a b} ha hb apart same => ?_
  have wideA := h.wide a ha
  have wideB := h.wide b hb
  unfold Edit.Apart at apart
  omega

/-- An edit that replaces whole characters of a text is one of its bytes. -/
theorem located_of_spans {text : String} {e : Edit}
    (h : ∃ start stop : Nat, e.start = start ∧ e.stop = stop ∧ Spans text.toList start stop) :
    e.Located 0 (Source.ofString text).toBytes.length := by
  obtain ⟨start, stop, hstart, hstop, spans⟩ := h
  have last := spans.last.le.2
  rw [Source.toBytes_ofString, Text.encode_eq]
  exact ⟨start, stop, hstart, hstop, Nat.zero_le _, Nat.le_of_lt spans.wide, by omega⟩

theorem Pending.located {text : String} {edits : List Edit} (h : Pending text.toList edits) :
    ∀ e ∈ edits, e.Located 0 (Source.ofString text).toBytes.length :=
  fun e he => located_of_spans (h.spans e he)

section

variable {text text' : String} {E F : List Edit}
  (same : F.Perm (E.map (·.crlf (Source.ofString text).toBytes)))
  (pending : Pending text.toList E) (pending' : Pending text'.toList F)
  (returned : Source.ofString text' = (Source.ofString text).crlf)
include same pending pending' returned

/-- The same edits made in a statement with and without carriage returns. -/
theorem moved_textWith {a b : Statement} (h : a.Moved (.ofString text) b)
    (quotes : a.Quotes text.toList (Source.ofString text))
    (quotes' : b.Quotes text'.toList (Source.ofString text')) :
    Statement.Moved (.ofString text)
      { a with text := textWith (Source.ofString text).toBytes E a }
      { b with text := textWith (Source.ofString text').toBytes F b } := by
  obtain ⟨tail, ends⟩ := h.stop
  have located := pending.located
  have size : a.stop ≤ (Source.ofString text).toBytes.length := by
    have := quotes.spans.last.le.2
    rw [Source.toBytes_ofString, Text.encode_eq]
    omega
  have inside : F.any (·.within b.start b.stop) = E.any (·.within a.start a.stop) := by
    rw [same.any_eq, List.any_map, h.start, Bool.eq_iff_iff, List.any_eq_true, List.any_eq_true]
    refine exists_congr fun e => and_congr_right fun he => ?_
    rw [Function.comp_apply, Source.moved, Edit.within_crlf ends (located e he)]
  have made : (Text.sliceWithEdits (Source.ofString text').toBytes b.start b.stop F).toOption =
      (Text.sliceWithEdits (Source.ofString text).toBytes a.start a.stop E).toOption.map
        (crlfText · ++ tail) := by
    rw [Text.sliceWithEdits_perm same pending'.distinct, h.start, returned, Source.toBytes_crlf]
    exact Text.sliceWithEdits_crlfBytes ends (Nat.le_of_lt quotes.spans.wide) size located
  have embeds := (embedInStatement_eq pending quotes).1
  have embeds' := (embedInStatement_eq pending' quotes').1
  rw [embedInStatement] at embeds embeds'
  rw [inside] at embeds'
  split at embeds
  · rename_i some
    rw [if_pos some] at embeds'
    cases cut : Text.sliceWithEdits (Source.ofString text).toBytes a.start a.stop E with
    | error o =>
      rw [cut] at embeds
      cases embeds
    | ok new =>
      cases cut' : Text.sliceWithEdits (Source.ofString text').toBytes b.start b.stop F with
      | error o =>
        rw [cut'] at embeds'
        cases embeds'
      | ok new' =>
        rw [cut, cut'] at made
        rw [cut] at embeds
        rw [cut'] at embeds'
        rw [← Except.ok.inj embeds, ← Except.ok.inj embeds']
        exact { h with text := ⟨tail, Option.some.inj made, ends.tail_eq⟩ }
  · rename_i none
    rw [if_neg none] at embeds'
    rw [← Except.ok.inj embeds, ← Except.ok.inj embeds']
    exact h

theorem moved_map_textWith {l m : List Statement}
    (h : List.Forall₂ (Statement.Moved (.ofString text)) l m)
    (quotes : ∀ a ∈ l, a.Quotes text.toList (Source.ofString text))
    (quotes' : ∀ b ∈ m, b.Quotes text'.toList (Source.ofString text')) :
    List.Forall₂ (Statement.Moved (.ofString text))
      (l.map fun a => { a with text := textWith (Source.ofString text).toBytes E a })
      (m.map fun b => { b with text := textWith (Source.ofString text').toBytes F b }) := by
  induction h with
  | nil => exact .nil
  | @cons a b l m own _ ih =>
    rw [List.map_cons, List.map_cons]
    refine .cons ?_ (ih (fun c hc => quotes c (List.mem_cons_of_mem a hc))
      fun c hc => quotes' c (List.mem_cons_of_mem b hc))
    exact moved_textWith same pending pending' returned own (quotes a List.mem_cons_self)
      (quotes' b List.mem_cons_self)

end

/-! ### Turns at nested sites -/

/-- The turns at the sites that are nested in a site. -/
def inside (site : CallSite) (ts : List Turn) : List Turn :=
  ts.filter fun t => (t.site.edit "").nested (site.edit "")

/-- Of edits that lie in a place or apart from it, those that lie in no other one and in the place are
those that lie in no other one in the place. -/
theorem filter_within_topmost {es : List Edit} {place : Edit} (wide : ∀ e ∈ es, e.start < e.stop)
    (own : place.start < place.stop) (precedes : ∀ e ∈ es, e.Precedes place) :
    (topmost es).filter (·.within place.start place.stop) = topmost (es.filter (·.nested place)) := by
  rw [topmost, topmost, List.filter_filter, List.filter_filter]
  refine List.filter_congr fun e he => ?_
  have wideE := wide e he
  have same : e.within place.start place.stop = e.nested place := by
    rw [Bool.eq_iff_iff, Edit.nested_iff, Edit.within, Bool.and_eq_true, decide_eq_true_eq,
      decide_eq_true_eq]
    rcases precedes e he with nested | apart
    · have := Edit.nested_iff.1 nested
      omega
    · unfold Edit.Apart at apart
      omega
  rw [same]
  cases nested : e.nested place with
  | false => rw [Bool.false_and, Bool.and_false]
  | true =>
    rw [Bool.true_and, Bool.and_true, List.any_filter]
    have here := Edit.nested_iff.1 nested
    refine congrArg not ?_
    rw [Bool.eq_iff_iff, List.any_eq_true, List.any_eq_true]
    refine exists_congr fun f => and_congr_right fun hf => ?_
    rw [Bool.and_eq_true]
    refine ⟨fun around => ⟨?_, around⟩, And.right⟩
    rcases precedes f hf with nested | apart
    · exact nested
    · have := Edit.nested_iff.1 around
      have := wide f hf
      unfold Edit.Apart at apart
      omega

theorem exists_of_edit? {t : Turn} {e : Edit} (h : t.edit? = some e) : ∃ r, e = t.site.edit r := by
  obtain ⟨r, _, same⟩ := Turn.edit?_eq_some_iff.1 h
  exact ⟨r.text, same⟩

/-- The edits of turns at sites nested in a site. -/
theorem replacements_inside (site : CallSite) (ts : List Turn) :
    replacements (inside site ts) = (replacements ts).filter (·.nested (site.edit "")) := by
  rw [replacements, inside, List.filterMap_filter, replacements, List.filter_filterMap]
  refine List.filterMap_congr fun t _ => ?_
  cases edit : t.edit? with
  | none => rw [Option.filter_none, ite_self]
  | some e =>
    obtain ⟨r, rfl⟩ := exists_of_edit? edit
    rw [Option.filter_some]
    rfl

/-! ### The turns of a conversion -/

theorem Run.of_mem {settings : Settings} {source : List UInt8} {p q : Progress} {ts : List Turn}
    (h : Run settings source p ts q) {t : Turn} (ht : t ∈ ts) :
    ∃ embedded, embedEdits source t.before.edits t.site = .ok embedded ∧
      embedded.attempt settings = .ok t.outcome := by
  induction h with
  | done p => cases ht
  | turn embeds settles more ih =>
    rcases List.mem_cons.1 ht with rfl | ht
    · exact ⟨_, embeds, settles⟩
    · exact ih ht

theorem Followed.sublist {text : List Char} {past es : List Edit} (h : Followed text past [])
    (fewer : es.Sublist past) : Followed text es [] := by
  have all := fewer.append_right (([] : List CallSite).map (·.edit ""))
  exact ⟨fun e he => h.spans e (all.subset he), h.precedes.sublist all⟩

theorem Followed.located {text : String} {past : List Edit} (h : Followed text.toList past []) :
    ∀ e ∈ past, e.Located 0 (Source.ofString text).toBytes.length :=
  fun e he => located_of_spans (h.spans e (List.mem_append_left _ he))

section

variable {settings : Settings} {text file : String} {ts : List Turn} {done : Progress}
  (course : Course settings file text ts done)
include course

theorem Course.followed_inside (site : CallSite) :
    Followed text.toList (replacements (inside site ts)) [] :=
  course.followed.sublist (List.filter_sublist.filterMap _)

theorem Course.pending_inside (site : CallSite) :
    Pending text.toList (topmost (replacements (inside site ts))) :=
  (course.followed_inside site).pending

variable (clean : (CompilationUnit.ofString text).hasSyntaxErrors = false)
include clean

theorem Course.wide_site {t : Turn} (ht : t ∈ ts) : t.site.start < t.site.stop := by
  obtain ⟨call, parameters, block, isSite⟩ := course.exists_isSite ht
  exact (isSite.spans clean).wide

theorem Course.quotes {t : Turn} (ht : t ∈ ts) :
    ∀ s ∈ t.site.arena.statements, s.Quotes text.toList (Source.ofString text) := by
  obtain ⟨call, parameters, block, isSite⟩ := course.exists_isSite ht
  rw [isSite.same]
  exact fun s hs => Callback.quotes_of_mem_arenaOf (isSite.belongs clean) hs

theorem Course.sites_precede :
    ts.Pairwise fun t u => (t.site.edit "").Precedes (u.site.edit "") := by
  have sites := (followed_callSites clean file).precedes
  rwa [List.nil_append, ← course.sites, List.map_map, List.pairwise_map] at sites

/-- The edits that a turn makes in the statements of its site come from the sites nested in it. -/
theorem Course.filter_before {t : Turn} (ht : t ∈ ts) :
    t.before.edits.filter t.site.encloses = topmost (replacements (inside t.site ts)) := by
  obtain ⟨earlier, later, split⟩ := List.append_of_mem ht
  obtain ⟨_, after, across⟩ := List.pairwise_append.1 (split ▸ course.sites_precede clean)
  have own : (t.site.edit "").start < (t.site.edit "").stop :=
    Int.ofNat_lt.2 (course.wide_site clean ht)
  -- sites converted later are not nested in this one
  have none : ∀ u ∈ t :: later, ¬ (u.site.edit "").nested (t.site.edit "") = true := by
    intro u hu nested
    have inner := Edit.nested_iff.1 nested
    rcases List.mem_cons.1 hu with rfl | hu
    · omega
    · rcases (List.pairwise_cons.1 after).1 u hu with outer | apart
      · have := Edit.nested_iff.1 outer
        omega
      · have wide := course.wide_site clean (split ▸ List.mem_append_right _
          (List.mem_cons_of_mem t hu))
        have wide : (u.site.edit "").start < (u.site.edit "").stop := Int.ofNat_lt.2 wide
        unfold Edit.Apart at apart
        omega
  have earliest : inside t.site ts = inside t.site earlier := by
    rw [split, inside, List.filter_append, List.filter_eq_nil_iff.2 none, List.append_nil, inside]
  have before (e : Edit) (he : e ∈ replacements earlier) :
      e.start < e.stop ∧ e.Precedes (t.site.edit "") := by
    obtain ⟨u, hu, edit⟩ := List.mem_filterMap.1 he
    obtain ⟨r, rfl⟩ := exists_of_edit? edit
    exact ⟨Int.ofNat_lt.2 (course.wide_site clean (split ▸ List.mem_append_left _ hu)),
      across u hu t List.mem_cons_self⟩
  rw [earliest, replacements_inside, ← filter_within_topmost (fun e he => (before e he).1) own
    (fun e he => (before e he).2), course.before earlier t later split]
  rfl

/-- What a turn attempts. -/
theorem Course.attempt {t : Turn} (ht : t ∈ ts) :
    (t.site.withTexts (textWith (Source.ofString text).toBytes
      (topmost (replacements (inside t.site ts))))).attempt settings = .ok t.outcome := by
  obtain ⟨earlier, later, split⟩ := List.append_of_mem ht
  have pending : Pending text.toList t.before.edits := by
    rw [course.before earlier t later split]
    refine (course.followed.sublist ?_).pending
    rw [split, replacements, replacements, List.filterMap_append]
    exact List.sublist_append_left _ _
  obtain ⟨embedded, embeds, attempted⟩ := course.run.of_mem ht
  rw [embedEdits_eq_ok pending (course.quotes clean ht)] at embeds
  cases embeds
  rwa [CallSite.refreshed, course.filter_before clean ht] at attempted

end

/-! ### The turns in both texts -/

/-- A turn at a site, and a turn at the same site in the text with carriage returns. -/
def Turn.Pairs (s : Source) (t u : Turn) : Prop :=
  t.site.Moved s u.site

theorem Turn.Pairs.nested {s : Source} {t u t' u' : Turn} (h : t.Pairs s u) (h' : t'.Pairs s u') :
    (u.site.edit "").nested (u'.site.edit "") = (t.site.edit "").nested (t'.site.edit "") := by
  rw [Bool.eq_iff_iff, Edit.nested_iff, Edit.nested_iff]
  simp only [CallSite.edit, h.start, h.stop, h'.start, h'.stop, Int.ofNat_lt, Int.ofNat_le,
    Source.moved_lt_iff, Source.moved_le_iff]

theorem Turn.Pairs.edit? {s : Source} {t u : Turn} (h : t.Pairs s u)
    (same : u.outcome = t.outcome.crlf) : u.edit? = t.edit?.map (·.crlf s.toBytes) := by
  rw [Turn.edit?, Turn.edit?, same, Outcome.crlf]
  cases t.outcome.result with
  | error d => rfl
  | ok r =>
    show some (u.site.edit (crlfText r.text)) = some ((t.site.edit r.text).crlf s.toBytes)
    rw [CallSite.edit, h.start, h.stop]
    rfl

theorem replacements_moved {s : Source} {ts us : List Turn}
    (h : List.Forall₂ (fun t u => t.Pairs s u ∧ u.outcome = t.outcome.crlf) ts us) :
    replacements us = (replacements ts).map (·.crlf s.toBytes) := by
  induction h with
  | nil => rfl
  | @cons t u ts us own _ ih =>
    unfold replacements at ih ⊢
    rw [List.filterMap_cons, own.1.edit? own.2, ih, List.filterMap_cons]
    cases t.edit? <;> rfl

theorem topmost_map_crlf {bs : List UInt8} {es : List Edit}
    (located : ∀ e ∈ es, e.Located 0 bs.length) :
    topmost (es.map (·.crlf bs)) = (topmost es).map (·.crlf bs) := by
  have nested : ∀ e ∈ es, ∀ f ∈ es, (e.crlf bs).nested (f.crlf bs) = e.nested f := by
    intro e he f hf
    obtain ⟨first, last, hfirst, hlast, _⟩ := located e he
    obtain ⟨first', last', hfirst', hlast', _⟩ := located f hf
    rw [Bool.eq_iff_iff, Edit.nested_iff, Edit.nested_iff]
    simp only [Edit.crlf, hfirst, hlast, hfirst', hlast', Int.toNat_natCast, Int.ofNat_lt,
      Int.ofNat_le, Text.crlfOffset_lt_iff, Text.crlfOffset_le_iff]
  rw [topmost, topmost, List.filter_map]
  refine congrArg _ (List.filter_congr fun e he => ?_)
  rw [Function.comp_apply, List.any_map]
  refine congrArg not ?_
  rw [Bool.eq_iff_iff, List.any_eq_true, List.any_eq_true]
  exact exists_congr fun f => and_congr_right fun hf => by
    rw [Function.comp_apply, nested e he f hf]

theorem topmost_perm {es fs : List Edit} (perm : es.Perm fs) : (topmost es).Perm (topmost fs) := by
  have same : (fun e : Edit => !es.any e.nested) = fun e => !fs.any e.nested :=
    funext fun e => by rw [perm.any_eq]
  rw [topmost, same]
  exact perm.filter _

/-- The edits left of turns in one text and of those in the other one. -/
theorem topmost_replacements_moved {text : String} {ts us vs : List Turn}
    (followed : Followed text.toList (replacements ts) [])
    (h : List.Forall₂ (fun t u => t.Pairs (.ofString text) u ∧ u.outcome = t.outcome.crlf) ts us)
    (perm : us.Perm vs) : (topmost (replacements vs)).Perm
      ((topmost (replacements ts)).map (·.crlf (Source.ofString text).toBytes)) := by
  rw [← topmost_map_crlf followed.located, ← replacements_moved h]
  exact topmost_perm (perm.symm.filterMap _)

section

variable {settings : Settings} {text file : String} {ts us vs : List Turn} {done done' : Progress}
  (course : Course settings file text ts done)
  (course' : Course settings file (crlfText text) us done')
  (clean : (CompilationUnit.ofString text).hasSyntaxErrors = false)
  (clean' : (CompilationUnit.ofString (crlfText text)).hasSyntaxErrors = false)
  (paired : List.Forall₂ (Turn.Pairs (.ofString text)) ts vs) (perm : vs.Perm us)
  (step : '\n' ∉ settings.indent.toList) (inLine : '\n' ∉ settings.terminationName.toList)
include course course' clean clean' paired perm step inLine

/-- A site has the same outcome in both texts: by induction on its size, the sites nested in it have. -/
theorem outcome_of_pairs {t u : Turn} (ht : t ∈ ts) (hu : u ∈ us)
    (pair : t.Pairs (.ofString text) u) : u.outcome = t.outcome.crlf := by
  generalize size : t.site.stop - t.site.start = n
  induction n using Nat.strongRecOn generalizing t u with
  | ind n ih =>
    have inner : List.Forall₂ (fun t u => t.Pairs (.ofString text) u ∧ u.outcome = t.outcome.crlf)
        (inside t.site ts) (inside u.site vs) := by
      have related : List.Forall₂ (Turn.Pairs (.ofString text)) (inside t.site ts)
          (inside u.site vs) :=
        List.rel_filter (fun t' u' pair' => Bool.eq_iff_iff.1 (pair'.nested pair).symm) paired
      refine List.forall₂_iff_zip.2 ⟨related.length_eq, fun {t' u'} both => ?_⟩
      have pair' := (List.forall₂_iff_zip.1 related).2 both
      obtain ⟨first, second⟩ := List.of_mem_zip both
      obtain ⟨ht', nested⟩ := List.mem_filter.1 first
      have around := Edit.nested_iff.1 nested
      have smaller : t'.site.stop - t'.site.start < n := by
        have wide := course.wide_site clean ht
        simp only [CallSite.edit] at around
        omega
      exact ⟨pair', ih _ smaller ht' (perm.mem_iff.1 (List.mem_filter.1 second).1) pair' rfl⟩
    have same : (topmost (replacements (inside u.site us))).Perm
        ((topmost (replacements (inside t.site ts))).map
          (·.crlf (Source.ofString text).toBytes)) :=
      topmost_replacements_moved (course.followed_inside t.site) inner (perm.filter _)
    have moved : CallSite.Moved (.ofString text)
        (t.site.withTexts (textWith (Source.ofString text).toBytes
          (topmost (replacements (inside t.site ts)))))
        (u.site.withTexts (textWith (Source.ofString (crlfText text)).toBytes
          (topmost (replacements (inside u.site us))))) :=
      { pair with
        statements := moved_map_textWith same (course.pending_inside t.site)
          (course'.pending_inside u.site) (Source.ofString_crlfText text) pair.statements
          (course.quotes clean ht) (course'.quotes clean' hu) }
    have attempted := moved.attempt step inLine
    rw [course.attempt clean ht, course'.attempt clean' hu] at attempted
    cases attempted with
    | ok made => exact made

end

end MonoTap

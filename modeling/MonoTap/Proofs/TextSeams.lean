import MonoTap.Proofs.DeclaredImports
import MonoTap.Proofs.Splicing

/-!
# Seams of a text

A text without faults has seams before the declaration of an import that begins its line, after such a
declaration, after that of the package, and at its beginning.
-/

set_option autoImplicit false

namespace MonoTap.Java

open Grammar (ruleOf topLevel program beforeDeclaration)
open Rule (Derives Reads)
open Text (EndsSolid Source isBlank)

variable {front back blanks rest text g : List Char} {start stop lo hi place : Nat} {comments : List Node}
  {nodes : List Node} {m : Node} {ts us ts' us' tokens : List Token} {t : Token} {offset : Nat}

/-! ### The beginning of a line -/

/-- Whether some characters are whole lines. -/
def AreLines (cs : List Char) : Prop :=
  cs = [] ∨ ∃ g, cs = g ++ ['\n']

theorem not_endsSolid (blank : ∀ c ∈ blanks, isBlank c = true) : ¬ EndsSolid blanks := by
  rintro ⟨front, c, back, rfl, solid, _⟩
  rw [blank c (List.mem_append_right _ List.mem_cons_self)] at solid
  cases solid

/-- What ends within the blanks at the beginning of a line ends before the line. -/
theorem Solid.before_line (h : Solid (front ++ (blanks ++ back)) start stop) (lines : AreLines front)
    (blank : ∀ c ∈ blanks, isBlank c = true) (inside : stop ≤ byteLength (front ++ blanks)) :
    ∃ g, front = g ++ ['\n'] ∧ stop ≤ byteLength g := by
  obtain ⟨before, chunk, after, split, _, same, solid⟩ := h.ends
  have whole : before ++ chunk ++ after = front ++ blanks ++ back := by
    rw [List.append_assoc, ← split, List.append_assoc]
  rw [same, ← List.length_append, ← Text.encodeChars_append] at inside ⊢
  rw [byteLength_eq] at inside
  obtain ⟨rest, upTo, _⟩ := Text.exists_append_of_length_le whole inside
  have solid := solid.prepend before
  rcases lines with rfl | ⟨g, rfl⟩
  · rw [List.nil_append] at upTo
    exact (not_endsSolid (fun c hc => blank c (upTo ▸ List.mem_append_left _ hc)) solid).elim
  · refine ⟨g, rfl, ?_⟩
    rw [byteLength_eq, ← Nat.not_lt]
    intro beyond
    -- it would end with the line feed and some of the blanks
    rw [List.append_assoc] at upTo
    obtain ⟨more, split, tail⟩ := Text.exists_append_of_length_le upTo (Nat.le_of_lt beyond)
    rw [split] at solid beyond
    have blankMore : ∀ c ∈ more, isBlank c = true := by
      intro c hc
      have mem : c ∈ ['\n'] ++ blanks := tail ▸ List.mem_append_left _ hc
      rcases List.mem_append.1 mem with feed | mem
      · rw [List.mem_singleton.1 feed]
        decide
      · exact blank c mem
    rcases solid.of_append with within | inLine
    · exact not_endsSolid blankMore within
    · cases more with
      | nil =>
        rw [List.append_nil] at beyond
        exact Nat.lt_irrefl _ beyond
      | cons c more => exact inLine ((List.cons.inj tail).1 ▸ List.mem_cons_self)

/-! ### Tokens around a place -/

/-- What is known of each of some placed tokens. -/
theorem TokensPlaced.of_mem {P : Nat → Nat → Prop} (h : TokensPlaced P lo ts hi) (ht : t ∈ ts) :
    lo ≤ t.start ∧ t.start ≤ t.stop ∧ t.stop ≤ hi ∧ (t.IsGenuine → P t.start t.stop) ∧
      Placed P lo t.extras t.start := by
  induction h with
  | nil => cases ht
  | @cons lo hi u ts proper extras width covers rest ih =>
    have order := extras.le
    have further := rest.le
    rcases List.mem_cons.1 ht with rfl | ht
    · exact ⟨order, width, further, covers, extras⟩
    · obtain ⟨first, wide, last, here, extras'⟩ := ih ht
      exact ⟨by omega, wide, last, here, extras'.widen (by omega) (Nat.le_refl _)⟩

theorem isComment_notes (h : ∀ m ∈ comments, m.isComment = true)
    (earlier : ∀ t ∈ tokens, ∀ m ∈ t.extras, m.isComment = true) (cs : List Char) :
    ∀ m, (readTokens offset comments tokens cs).Notes m → m.isComment = true := by
  fun_induction readTokens offset comments tokens cs with
  | case1 offset comments tokens =>
    rintro m (hm | ⟨t, ht, hm⟩)
    · exact h m (List.mem_reverse.1 hm)
    · exact earlier t (List.mem_reverse.1 ht) m hm
  | case2 offset comments tokens c cs space ih => exact ih h earlier
  | case3 =>
    rename_i offset comments tokens c cs space n taken stop k found ih
    refine ih (List.forall_mem_cons.2 ⟨?_, h⟩) earlier
    have sound := isSound_scan c cs
    rwa [found] at sound
  | case4 =>
    rename_i offset comments tokens c cs space n taken stop k found ih
    rw [List.unattach_reverse, List.unattach_attach] at ih
    refine ih (fun m hm => (List.not_mem_nil hm).elim) (List.forall_mem_cons.2 ⟨fun m hm => ?_, earlier⟩)
    exact h m (List.mem_reverse.1 hm)

theorem isComment_notes_ofChars (text : List Char) :
    ∀ m, (TokenList.ofChars text).Notes m → m.isComment = true := by
  have none : ∀ m ∈ ([] : List Node), m.isComment = true := fun m hm => (List.not_mem_nil hm).elim
  have none' : ∀ t ∈ ([] : List Token), ∀ m ∈ t.extras, m.isComment = true :=
    fun t ht => (List.not_mem_nil ht).elim
  cases text with
  | nil =>
    rintro m (hm | ⟨t, ht, _⟩)
    · exact none m hm
    · exact (List.not_mem_nil ht).elim
  | cons c cs =>
    rw [TokenList.ofChars]
    split <;> exact isComment_notes none none' _

/-- Tokens, of which none is stray, with the comments before them, and the comments after the last one. -/
structure TokenList.Fits (text : List Char) (l : TokenList) : Prop where
  stands : l.Stands text
  genuine : ∀ t ∈ l.tokens, t.IsGenuine
  comment : ∀ m, l.Notes m → m.isComment = true

theorem fits_ofChars (h : Reads ruleOf program [] (TokenList.ofChars text).tokens (some (nodes, []))) :
    (TokenList.ofChars text).Fits text where
  stands := stands_ofChars text
  genuine t ht := ⟨(fresh_ofChars text t ht).present, (derives_of_reads_all h).not_stray t ht⟩
  comment := isComment_notes_ofChars text

namespace TokenList.Fits

variable {l : TokenList} (h : l.Fits text)
include h

theorem notes (hm : l.Notes m) : Solid text m.start m.stop := by
  obtain ⟨⟨mid, placed, trailing⟩, loose⟩ := h.stands
  have comment := h.comment m hm
  rcases hm with hm | ⟨t, ht, hm⟩
  · exact (trailing.of_mem hm).2.2.1 (Node.hasError_of_comment comment (loose m hm).children)
  · obtain ⟨_, _, _, _, extras⟩ := placed.of_mem ht
    exact (extras.of_mem hm).2.2.1
      (Node.hasError_of_comment comment ((placed.proper t ht).loose m hm).children)

theorem token (ht : t ∈ l.tokens) : Solid text t.start t.stop := by
  obtain ⟨⟨mid, placed, _⟩, _⟩ := h.stands
  exact (placed.of_mem ht).2.2.2.1 (h.genuine t ht)

/-- No token and no comment goes on beyond the beginning of a token. -/
theorem apart (split : l.tokens = ts ++ t :: us) :
    l.Apart t.start ∧ (∀ u ∈ ts, u.stop ≤ t.start) ∧ ∀ u ∈ us, t.stop ≤ u.start := by
  obtain ⟨⟨mid, placed, trailing⟩, loose⟩ := h.stands
  rw [split] at placed
  obtain ⟨cut, before, after⟩ := placed.of_append
  cases after with
  | cons proper extras width covers rest =>
    have order := extras.le
    have earlier (u : Token) (hu : u ∈ ts) : u.stop ≤ t.start := by
      have := (before.of_mem hu).2.2.1
      omega
    have later (u : Token) (hu : u ∈ us) : t.stop ≤ u.start := (rest.of_mem hu).1
    refine ⟨⟨fun u hu first => ⟨?_, (h.genuine u hu).2⟩, fun m hm first => ?_⟩, earlier, later⟩
    · rw [split] at hu
      rcases List.mem_append.1 hu with hu | hu
      · exact earlier u hu
      · rcases List.mem_cons.1 hu with rfl | hu
        · omega
        · have := later u hu
          omega
    · rcases hm with hm | ⟨u, hu, hm⟩
      · have := (trailing.of_mem hm).1
        have := rest.le
        omega
      · rw [split] at hu
        rcases List.mem_append.1 hu with hu | hu
        · obtain ⟨_, wide, _, _, extras'⟩ := before.of_mem hu
          have := (extras'.of_mem hm).2.2.2
          have := earlier u hu
          omega
        · rcases List.mem_cons.1 hu with rfl | hu
          · exact (extras.of_mem hm).2.2.2
          · obtain ⟨_, _, _, _, extras'⟩ := rest.of_mem hu
            have := (extras'.of_mem hm).1
            omega

end TokenList.Fits

/-- The tokens that begin before a place and those that begin there or later. -/
theorem append_inj_of_start (same : ts ++ us = ts' ++ us') (early : ∀ t ∈ ts, t.start < place)
    (late : ∀ t ∈ us, place ≤ t.start) (early' : ∀ t ∈ ts', t.start < place)
    (late' : ∀ t ∈ us', place ≤ t.start) : ts = ts' ∧ us = us' := by
  have takes {ts us : List Token} (early : ∀ t ∈ ts, t.start < place) (late : ∀ t ∈ us, place ≤ t.start) :
      (ts ++ us).filter (fun t => decide (t.start < place)) = ts := by
    rw [List.filter_append, List.filter_eq_self.2 fun t ht => decide_eq_true (early t ht),
      List.filter_eq_nil_iff.2, List.append_nil]
    intro t ht
    have := late t ht
    simpa using this
  have first := takes early late
  rw [same, takes early' late'] at first
  exact ⟨first.symm, List.append_cancel_left (first ▸ same)⟩

/-! ### Where a text may be cut -/

/-- A text may be cut at the beginning of a line if only blanks stand between there and a token. -/
theorem opens_of_line (h : (TokenList.ofChars (front ++ (blanks ++ back))).Fits (front ++ (blanks ++ back)))
    (lines : AreLines front) (blank : ∀ c ∈ blanks, isBlank c = true)
    (split : (TokenList.ofChars (front ++ (blanks ++ back))).tokens = ts ++ t :: us)
    (first : t.start = byteLength (front ++ blanks)) :
    Opens front ∧ ∀ u ∈ ts, u.start < byteLength front := by
  obtain ⟨apart, earlier, later⟩ := h.apart split
  have upTo {start stop : Nat} (solid : Solid (front ++ (blanks ++ back)) start stop)
      (before : stop ≤ t.start) : ∃ g, front = g ++ ['\n'] ∧ stop ≤ byteLength g :=
    solid.before_line lines blank (first ▸ before)
  rw [byteLength_append] at first
  constructor
  · rcases lines with rfl | ⟨g, rfl⟩
    · exact opens_nil
    · have shorter : byteLength g ≤ byteLength (g ++ ['\n']) := by
        rw [byteLength_append]
        omega
      have within {start stop : Nat} (solid : Solid (g ++ ['\n'] ++ (blanks ++ back)) start stop)
          (before : stop ≤ t.start) : stop ≤ byteLength g := by
        obtain ⟨g', same, bound⟩ := upTo solid before
        rwa [List.append_cancel_right same]
      have whole : g ++ '\n' :: (blanks ++ back) = g ++ ['\n'] ++ (blanks ++ back) := by simp
      have apart' : (TokenList.ofChars (g ++ '\n' :: (blanks ++ back))).Apart (byteLength g) := by
        rw [whole]
        refine ⟨fun u hu before => ?_, fun m hm before => within (h.notes hm) (apart.comment m hm (by omega))⟩
        obtain ⟨stops, read⟩ := apart.token u hu (by omega)
        exact ⟨within (h.token hu) stops, read⟩
      exact opens_of_cut (by decide) apart'
  · intro u hu
    have mem : u ∈ (TokenList.ofChars (front ++ (blanks ++ back))).tokens :=
      split ▸ List.mem_append_left _ hu
    have solid := h.token mem
    obtain ⟨g, rfl, bound⟩ := upTo solid (earlier u hu)
    have wide := solid.wide
    rw [byteLength_append]
    omega

/-- A text may be cut after a semicolon. -/
theorem exists_opens_of_semicolon (h : (TokenList.ofChars text).Fits text)
    (split : (TokenList.ofChars text).tokens = ts ++ t :: us) (reads : t.reads ";" = true) :
    ∃ g back, text = g ++ [';'] ++ back ∧ t.stop = byteLength (g ++ [';']) ∧ Opens (g ++ [';']) ∧
      (∀ u ∈ ts ++ [t], u.start < byteLength (g ++ [';'])) ∧
      ∀ u ∈ us, byteLength (g ++ [';']) ≤ u.start := by
  have mem : t ∈ (TokenList.ofChars text).tokens :=
    split ▸ List.mem_append_right _ List.mem_cons_self
  obtain ⟨apart, earlier, later⟩ := h.apart split
  obtain ⟨g, back, whole, first, last⟩ := ((scans_ofChars text).tokens t mem).written (h.genuine t mem)
  rw [Token.text_of_reads reads] at whole last
  have stop : t.stop = byteLength (g ++ [';']) := by
    rw [last, first, byteLength_append, byteLength_eq, byteLength_eq]
    rfl
  rw [← byteLength_eq] at first
  have wide := (h.token mem).wide
  refine ⟨g, back, by rw [whole, List.append_assoc]; rfl, stop, ?_, fun u hu => ?_, fun u hu => ?_⟩
  · have cut : text = g ++ ';' :: back := whole
    rw [cut, first] at apart
    exact opens_of_cut (by decide) apart
  · rw [← stop]
    rcases List.mem_append.1 hu with hu | hu
    · have := earlier u hu
      have := (fresh_ofChars text u (split ▸ List.mem_append_left _ hu)).wide
      omega
    · rwa [List.mem_singleton.1 hu]
  · rw [← stop]
    exact later u hu

/-- A text that is cut between constructs is cut at a seam. -/
theorem seam_of_run (opens : Opens front) (unmarked : front = [] → isMarked back = false)
    (split : (TokenList.ofChars (front ++ back)).tokens = ts ++ us)
    (early : ∀ t ∈ ts, t.start < byteLength front) (late : ∀ t ∈ us, byteLength front ≤ t.start)
    (run : ∀ rest, (beforeDeclaration.edge.Admits us → beforeDeclaration.edge.Admits rest) →
      Run rest ts nodes) : Seam front back (writtenIn (front ++ back) nodes) := by
  obtain ⟨⟨mid, placed, trailing⟩, _⟩ := stands_ofChars front
  have bound := trailing.le
  rw [← byteLength_eq] at bound
  have own : ∀ t ∈ (TokenList.ofChars front).tokens, t.start < byteLength front := by
    intro t ht
    have := (placed.of_mem ht).2.2.1
    have := (fresh_ofChars front t ht).wide
    omega
  have further : ∀ t ∈ (readAfter front back).tokens, byteLength front ≤ t.start :=
    fun t ht => (fresh_readTokens (Nat.le_refl _) (fun t ht => by cases ht) t ht).start
  have whole := congrArg TokenList.tokens (opens back unmarked)
  rw [split] at whole
  obtain ⟨rfl, rfl⟩ := append_inj_of_start whole early late own further
  exact ⟨opens, unmarked, nodes, (writtenIn_front (run _ id).derives back).symm, run⟩

end MonoTap.Java

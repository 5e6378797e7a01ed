import MonoTap.Proofs.Consumption
import MonoTap.Proofs.Frame

/-!
# Converting a text again

Each site that is converted uses up a mention of the method, and no mention comes in. So of two
conversions one after the other the second converts at most the calls whose mentions the first has
left, and it changes nothing where none is left.
-/

set_option autoImplicit false

namespace MonoTap

open Java (CompilationUnit)
open Text (encodeChars)

/-! ### Sites that are converted -/

/-- Whether a site of the text would be converted. -/
def Convertible (file text : String) : Prop :=
  (CompilationUnit.ofString text).hasSyntaxErrors = false ∧
    ∃ site ∈ (callSites (CompilationUnit.ofString text) file).1, ∃ elementType,
      site.elementType = .ok elementType

theorem not_converted_of_mem_callSites {u : CompilationUnit} {file : String} {outcome : Outcome}
    (h : outcome ∈ (callSites u file).2) : outcome.converted = false := by
  obtain ⟨found, hfound, right⟩ := List.mem_filterMap.1 h
  obtain ⟨call, _, rfl⟩ := List.mem_map.1 hfound
  rw [siteOrOutcome] at right
  split at right
  · cases right
  · cases right
    rfl

theorem length_replacements (ts : List Turn) :
    (replacements ts).length = (ts.map Turn.outcome).countP Outcome.converted := by
  rw [replacements, List.length_filterMap_eq_countP, List.countP_map]
  refine List.countP_congr fun t _ => ?_
  rw [Turn.edit?, Function.comp_apply, Outcome.converted]
  cases t.outcome.result <;> simp

section

variable {settings : Settings} {file text : String} {ts : List Turn} {done : Progress}
  (course : Course settings file text ts done)
include course

/-- As many sites are converted as calls are replaced. -/
theorem Course.convertedCount_eq {conversion : Conversion}
    (converted : convert settings file text = .ok conversion) :
    conversion.convertedCount = (replacements ts).length := by
  have perm := List.mergeSort_perm
    ((callSites (CompilationUnit.ofString text) file).2 ++ ts.map Turn.outcome)
    fun a b => decide (a.line ≤ b.line)
  have none : (callSites (CompilationUnit.ofString text) file).2.countP Outcome.converted = 0 :=
    List.countP_eq_zero.2 fun o ho => by
      rw [not_converted_of_mem_callSites ho]
      exact Bool.false_ne_true
  rw [Conversion.convertedCount, course.outcomes conversion converted, byLine,
    ← List.countP_eq_length_filter, perm.countP_eq, List.countP_append, none, Nat.zero_add,
    length_replacements]

theorem Course.length_usedOffsets {conversion : Conversion}
    (converted : convert settings file text = .ok conversion) :
    (usedOffsets ts).length = conversion.convertedCount := by
  rw [usedOffsets, List.length_map, course.convertedCount_eq converted]

/-- Every site is converted if the type of its elements is known everywhere. -/
theorem Course.convertedCount_eq_length {conversion : Conversion}
    (converted : convert settings file text = .ok conversion)
    (known : ∀ site ∈ (callSites (CompilationUnit.ofString text) file).1, ∃ elementType,
      site.elementType = .ok elementType) :
    conversion.convertedCount =
      (callSites (CompilationUnit.ofString text) file).1.length := by
  have sites := congrArg List.length course.sites
  rw [List.length_map, innermostFirst, List.length_mergeSort] at sites
  rw [course.convertedCount_eq converted, length_replacements, List.countP_map, ← sites]
  refine List.countP_eq_length.2 fun t ht => (course.settled t ht).converted_iff.2 (known t.site ?_)
  exact List.mem_mergeSort.1 (course.sites ▸ List.mem_map_of_mem ht)

theorem Course.convertible_iff
    (clean : (CompilationUnit.ofString text).hasSyntaxErrors = false) :
    Convertible file text ↔ replacements ts ≠ [] := by
  have sites {site : CallSite} :
      site ∈ (callSites (CompilationUnit.ofString text) file).1 ↔ ∃ t ∈ ts, t.site = site := by
    rw [← List.mem_map, course.sites]
    exact List.mem_mergeSort.symm
  rw [← List.length_pos_iff_ne_nil, length_replacements, List.countP_map, List.countP_pos_iff]
  constructor
  · rintro ⟨_, site, hsite, known⟩
    obtain ⟨t, ht, rfl⟩ := sites.1 hsite
    exact ⟨t, ht, (course.settled t ht).converted_iff.2 known⟩
  · rintro ⟨t, ht, converted⟩
    exact ⟨clean, t.site, sites.2 ⟨t, ht, rfl⟩, (course.settled t ht).converted_iff.1 converted⟩

end

/-- Where a site would be converted the method is mentioned. -/
theorem Convertible.mentions_pos {file text : String} (h : Convertible file text) :
    0 < mentions text := by
  obtain ⟨clean, site, hsite, _⟩ := h
  obtain ⟨call, parameters, block, isSite⟩ := exists_isSite hsite
  have found := (exists_mention clean isSite.eligible).1
  rw [mentions, ← Text.length_occurrences methodWord 0 text.toList]
  exact List.length_pos_of_mem found
/-! ### One conversion -/

section

variable {settings : Settings} {file text : String}

theorem convert_of_hasSyntaxErrors (broken : (CompilationUnit.ofString text).hasSyntaxErrors = true)
    (settings : Settings) (file : String) :
    ∃ conversion, convert settings file text = .ok conversion ∧ conversion.text = text ∧
      conversion.convertedCount = 0 := by
  rw [convert, broken, if_pos rfl]
  exact ⟨_, rfl, rfl, rfl⟩

/-- A text without a site that would be converted stays as it is. -/
theorem convert_of_not_convertible (none : ¬ Convertible file text) (settings : Settings) :
    ∃ conversion, convert settings file text = .ok conversion ∧ conversion.text = text ∧
      conversion.convertedCount = 0 := by
  cases clean : (CompilationUnit.ofString text).hasSyntaxErrors with
  | true => exact convert_of_hasSyntaxErrors clean settings file
  | false =>
    obtain ⟨ts, done, course⟩ := exists_course clean settings file
    have replaced : replacements ts = [] := by
      by_contra some
      exact none ((course.convertible_iff clean).2 some)
    have edits : done.edits = [] := by
      rw [course.after, replaced]
      rfl
    have inserted : insertions (CompilationUnit.ofString text) done = [] := by
      rw [insertions, edits]
      rfl
    obtain ⟨conversion, converted⟩ := course.possible.2 fun i hi => by
      rw [inserted] at hi
      cases hi
    have spliced := course.spliced conversion converted
    rw [edits, inserted, List.append_nil, Text.inOrder_nil] at spliced
    refine ⟨conversion, converted, Text.encode_injective spliced.eq_of_nil, ?_⟩
    rw [course.convertedCount_eq converted, replaced]
    rfl

section

variable {conversion : Conversion} (converted : convert settings file text = .ok conversion)
include converted

/-- A conversion converts a site exactly if there is one that would be converted. -/
theorem convertedCount_eq_zero_iff :
    conversion.convertedCount = 0 ↔ ¬ Convertible file text := by
  constructor
  · rintro zero convertible
    obtain ⟨ts, done, course⟩ := exists_course convertible.1 settings file
    rw [course.convertedCount_eq converted, List.length_eq_zero_iff] at zero
    exact (course.convertible_iff convertible.1).1 convertible zero
  · intro none
    obtain ⟨_, same, _, zero⟩ := convert_of_not_convertible none settings
    cases converted.symm.trans same
    exact zero

/-- At most as many sites are converted as the text has mentions of the method. -/
theorem convertedCount_le : conversion.convertedCount ≤ mentions text := by
  by_cases convertible : Convertible file text
  · obtain ⟨ts, done, course⟩ := exists_course convertible.1 settings file
    rw [← course.length_usedOffsets converted]
    exact Nat.le_trans (Nat.le_add_left _ _) (course.spare_add_length_le convertible.1 0 0)
  · rw [(convertedCount_eq_zero_iff converted).2 convertible]
    exact Nat.zero_le _

/-- Each site that is converted uses up a mention of the method, and no mention comes in. -/
theorem convertedCount_add_mentions_le (valid : settings.Valid)
    (foreign : Foreign settings file text) :
    conversion.convertedCount + mentions conversion.text ≤ mentions text := by
  by_cases convertible : Convertible file text
  · obtain ⟨ts, done, course⟩ := exists_course convertible.1 settings file
    have left := course.mentions_le convertible.1 valid foreign converted
    have used := course.spare_add_length_le convertible.1 0 (encodeChars text.toList).length
    rw [course.length_usedOffsets converted] at used
    omega
  · obtain ⟨_, same, text', zero⟩ := convert_of_not_convertible convertible settings
    cases converted.symm.trans same
    rw [text', zero, Nat.zero_add]

/-- A conversion changes a text exactly if there is a site that would be converted. -/
theorem text_eq_iff (valid : settings.Valid) (foreign : Foreign settings file text) :
    conversion.text = text ↔ ¬ Convertible file text := by
  rw [← convertedCount_eq_zero_iff converted]
  have bound := convertedCount_add_mentions_le converted valid foreign
  constructor
  · intro same
    rw [same] at bound
    omega
  · intro zero
    have none := (convertedCount_eq_zero_iff converted).1 zero
    obtain ⟨_, same, text', _⟩ := convert_of_not_convertible none settings
    cases converted.symm.trans same
    exact text'

end

end

/-! ### Several conversions -/

/-- Conversions of a text one after the other, each of what the one before has made. -/
inductive Passes (settings : Settings) (file : String) : String → List Conversion → Prop
  | stop (text : String) : Passes settings file text []
  | pass {text : String} {conversion : Conversion} {conversions : List Conversion}
      (converted : convert settings file text = .ok conversion)
      (foreign : Foreign settings file text)
      (more : Passes settings file conversion.text conversions) :
      Passes settings file text (conversion :: conversions)

/-- All conversions together convert at most as many sites as the text has mentions of the method. -/
theorem Passes.sum_convertedCount_le {settings : Settings} {file text : String}
    {conversions : List Conversion} (h : Passes settings file text conversions)
    (valid : settings.Valid) :
    (conversions.map Conversion.convertedCount).sum ≤ mentions text := by
  induction h with
  | stop text => exact Nat.zero_le _
  | pass converted foreign more ih =>
    have bound := convertedCount_add_mentions_le converted valid foreign
    rw [List.map_cons, List.sum_cons]
    omega

end MonoTap

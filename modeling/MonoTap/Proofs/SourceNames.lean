import Mathlib.Data.List.TakeWhile
import MonoTap.Proofs.FileTrees
import MonoTap.Service.Routes

/-!
# The names of source files

Two places decide by the name of a file whether it is a source file: a preview, which looks for the
extension of the name among those of the settings, and the walk of a directory, which looks for one of
them at the end of the name. What a preview takes the walk lists too. The converse holds for extensions in
small letters with no dot but the one in front, and for names that have an extension.
-/

set_option autoImplicit false

namespace MonoTap.Text

/-! ### Small letters -/

variable {c d : Char} {cs : List Char}

/-- Where the small letters of a range of capitals lie: the first and the last one, and the step. -/
def smallRange : Nat × Nat × Nat × Int → Nat × Nat × Nat
  | (first, last, step, distance) =>
    (((first : Int) + distance).toNat, ((last : Int) + distance).toNat,
      if first == last then 2 else step)

/-- Whether small letters all lie outside a range of capitals, as far as the ends and the steps of the
two tell. -/
def misses : Nat × Nat × Nat → Nat × Nat × Nat × Int → Bool
  | (low, high, step), (first, last, step', _) =>
    Nat.blt high first || (Nat.blt last low ||
      (Nat.beq step' 2 && (Nat.beq step 2 && Nat.beq ((low + first) % 2) 1)))

/-- Whether the small letters of a range of capitals are letters of ASCII or far enough behind them. -/
def isSound : Nat × Nat × Nat × Int → Bool
  | (first, last, step, distance) =>
    (step == 1 || step == 2) &&
      (((first : Int) + distance == 107 && first == last) ||
        (128 ≤ (first : Int) + distance && (last : Int) + distance < 304) ||
        (304 < (first : Int) + distance && (last : Int) + distance < 0xD800) ||
        (0xDFFF < (first : Int) + distance && (last : Int) + distance < 0x110000))

theorem isSound_capitalRanges : ∀ r ∈ capitalRanges.toList, isSound r = true := by
  decide +kernel

theorem misses_capitalRanges :
    (capitalRanges.toList.all fun r => capitalRanges.toList.all (misses (smallRange r))) = true := by
  decide +kernel

/-- How a character comes by its small letters. -/
theorem lowerChar_cases (c : Char) :
    (c.toNat < 128 ∧ lowerChar c = [c.toLower]) ∨
    (c.toNat = 0x130 ∧ lowerChar c = ['i', Char.ofNat 0x307]) ∨
    (∃ first last step distance, (first, last, step, distance) ∈ capitalRanges.toList ∧
      first ≤ c.toNat ∧ c.toNat ≤ last ∧ (c.toNat - first) % step = 0 ∧
      lowerChar c = [Char.ofNat ((c.toNat : Int) + distance).toNat]) ∨
    lowerChar c = [c] := by
  unfold lowerChar
  dsimp only
  split
  · exact .inl ⟨by assumption, rfl⟩
  · split
    · exact .inr (.inl ⟨by simpa using ‹(c.toNat == 0x130) = true›, rfl⟩)
    · split
      · rename_i first last step distance found
        rw [← Array.find?_toList] at found
        have inside := List.find?_some found
        simp only [Bool.and_eq_true, decide_eq_true_eq, beq_iff_eq] at inside
        exact .inr (.inr (.inl ⟨first, last, step, distance, List.mem_of_find?_eq_some found,
          inside.1.1, inside.1.2, inside.2, rfl⟩))
      · exact .inr (.inr (.inr rfl))

/-- A character in no range of capitals is its own small letter. -/
theorem lowerChar_eq_self (late : 128 ≤ c.toNat) (plain : c.toNat ≠ 0x130)
    (outside : ∀ first last step distance, (first, last, step, distance) ∈ capitalRanges.toList →
      ¬(first ≤ c.toNat ∧ c.toNat ≤ last ∧ (c.toNat - first) % step = 0)) : lowerChar c = [c] := by
  have none : (capitalRanges.find? fun (first, last, step, _) =>
      first ≤ c.toNat && c.toNat ≤ last && (c.toNat - first) % step == 0) = none := by
    rw [← Array.find?_toList, List.find?_eq_none]
    rintro ⟨first, last, step, distance⟩ mem inside
    simp only [Bool.and_eq_true, decide_eq_true_eq, beq_iff_eq] at inside
    exact outside first last step distance mem ⟨inside.1.1, inside.1.2, inside.2⟩
  unfold lowerChar
  dsimp only
  rw [if_neg (Nat.not_lt.2 late), if_neg (by simpa using plain), none]

theorem toNat_ofNat_of_valid {n : Nat} (valid : n < 0xD800 ∨ 0xDFFF < n ∧ n < 0x110000) :
    (Char.ofNat n).toNat = n := by
  rw [Char.ofNat, dif_pos valid]
  rfl

/-- Where the small letter of a capital in a range lies. -/
theorem toNat_small {first last step n : Nat} {distance : Int}
    (mem : (first, last, step, distance) ∈ capitalRanges.toList) (low : first ≤ n) (high : n ≤ last) :
    ((Char.ofNat ((n : Int) + distance).toNat).toNat : Int) = n + distance ∧
      107 ≤ (n : Int) + distance := by
  have sound := isSound_capitalRanges _ mem
  simp only [isSound, Bool.and_eq_true, Bool.or_eq_true, decide_eq_true_eq, beq_iff_eq] at sound
  rw [toNat_ofNat_of_valid (by omega)]
  omega

/-- A small letter is its own small letter. -/
theorem lowerChar_of_mem_lowerChar (h : d ∈ lowerChar c) : lowerChar d = [d] := by
  rcases lowerChar_cases c with ⟨ascii, small⟩ | ⟨_, small⟩ |
    ⟨first, last, step, distance, mem, low, high, even, small⟩ | small
  · have all : ∀ n < 128, lowerChar (Char.ofNat n).toLower = [(Char.ofNat n).toLower] := by decide +kernel
    have here := all c.toNat ascii
    rw [small, List.mem_singleton] at h
    rwa [Char.ofNat_toNat, ← h] at here
  · rw [small, List.mem_cons, List.mem_singleton] at h
    rcases h with rfl | rfl <;> decide +kernel
  · rw [small, List.mem_singleton] at h
    subst h
    have sound := isSound_capitalRanges _ mem
    simp only [isSound, Bool.and_eq_true, Bool.or_eq_true, decide_eq_true_eq, beq_iff_eq] at sound
    have place := toNat_small mem low high
    by_cases ascii : (c.toNat : Int) + distance = 107
    · rw [ascii]
      decide +kernel
    · refine lowerChar_eq_self (by omega) (by omega) fun first' last' step' distance' mem' inside => ?_
      have apart := List.all_eq_true.1 (List.all_eq_true.1 misses_capitalRanges _ mem) _ mem'
      simp only [misses, smallRange, Bool.and_eq_true, Bool.or_eq_true, Nat.blt_eq, Nat.beq_eq,
        beq_iff_eq] at apart
      obtain ⟨low', high', even'⟩ := inside
      rcases apart with before | behind | ⟨two, steps, odd⟩
      · omega
      · omega
      · subst two
        split at steps
        · omega
        · subst steps
          omega
  · rw [small, List.mem_singleton] at h
    rw [h, small]

/-- A dot is the small letter of a dot only. -/
theorem dot_mem_lowerChar (c : Char) : '.' ∈ lowerChar c ↔ c = '.' := by
  constructor
  · intro h
    rcases lowerChar_cases c with ⟨ascii, small⟩ | ⟨_, small⟩ |
      ⟨first, last, step, distance, mem, low, high, _, small⟩ | small
    · have all : ∀ n < 128, (Char.ofNat n).toLower = '.' → Char.ofNat n = '.' := by decide
      have here := all c.toNat ascii
      rw [Char.ofNat_toNat] at here
      rw [small, List.mem_singleton] at h
      exact here h.symm
    · rw [small] at h
      exact absurd h (by decide)
    · rw [small, List.mem_singleton] at h
      have place := toNat_small mem low high
      rw [← h] at place
      have dot : ('.' : Char).toNat = 46 := rfl
      omega
    · rw [small, List.mem_singleton] at h
      exact h.symm
  · rintro rfl
    decide

theorem dot_mem_flatMap_lowerChar : '.' ∈ cs.flatMap lowerChar ↔ '.' ∈ cs := by
  simp only [List.mem_flatMap, dot_mem_lowerChar, exists_eq_right]

theorem lower_of_not_mem (h : 'Σ' ∉ cs) : lower cs = cs.flatMap lowerChar :=
  lowerFrom_of_not_mem h false

/-- A text in small letters is its own lower-case form. -/
theorem lower_lower (h : 'Σ' ∉ cs) : lower (lower cs) = lower cs := by
  rw [lower_of_not_mem h]
  have small : ∀ d ∈ cs.flatMap lowerChar, lowerChar d = [d] := fun d hd => by
    obtain ⟨c, _, hc⟩ := List.mem_flatMap.1 hd
    exact lowerChar_of_mem_lowerChar hc
  have none : 'Σ' ∉ cs.flatMap lowerChar := fun mem => absurd (small _ mem) (by decide +kernel)
  rw [lower_of_not_mem none, List.flatMap_congr small, List.flatMap_singleton']

/-- In the lower-case form of a text with a dot, the lower-case form of what follows it stands behind a
dot. -/
theorem lower_append_dot (front : List Char) {back : List Char} (h : 'Σ' ∉ back) :
    ∃ start, lower (front ++ '.' :: back) = start ++ '.' :: lower back := by
  have dot : lowerChar '.' = ['.'] := by decide
  have later (afterCased : Bool) :
      lowerFrom afterCased ('.' :: back) = '.' :: back.flatMap lowerChar := by
    rw [lowerFrom_of_not_mem (by simpa using h), List.flatMap_cons, dot]
    rfl
  have from' (afterCased : Bool) :
      ∃ start, lowerFrom afterCased (front ++ '.' :: back) = start ++ '.' :: lower back := by
    rw [lower_of_not_mem h]
    induction front generalizing afterCased with
    | nil => exact ⟨[], later afterCased⟩
    | cons c front ih =>
      rw [List.cons_append, lowerFrom]
      obtain ⟨start, same⟩ := ih (if isCaseIgnorable c then afterCased else isCased c)
      rw [same, ← List.append_assoc]
      exact ⟨_, rfl⟩
  exact from' false

theorem endsIn_iff {ending : List Char} : endsIn cs ending = true ↔ ending <:+ cs := by
  rw [endsIn, List.isPrefixOf_iff_prefix, List.reverse_prefix]

/-- What follows the last dot of a text. -/
theorem eq_of_dot_suffix {front back stem : List Char} (h : '.' :: stem <:+ front ++ '.' :: back)
    (last : '.' ∉ stem) (last' : '.' ∉ back) : stem = back := by
  obtain ⟨start, same⟩ := h
  have mirrored := congrArg (fun cs => cs.reverse.takeWhile (· != '.')) same
  have piece {front back : List Char} (last : '.' ∉ back) :
      (front ++ '.' :: back).reverse.takeWhile (· != '.') = back.reverse := by
    rw [List.reverse_append, List.reverse_cons, List.append_assoc, List.takeWhile_append_of_pos]
    · simp
    · intro c hc
      rw [List.mem_reverse] at hc
      exact bne_iff_ne.2 fun dot => last (dot ▸ hc)
  rw [piece last, piece last'] at mirrored
  exact List.reverse_injective mirrored

end MonoTap.Text

namespace MonoTap.Files

open Text (lower)

/-! ### Extensions -/

variable {name after : List Char}

theorem baseName_of_not_mem (whole : '/' ∉ name) : baseName name = name := by
  rw [baseName, List.takeWhile_eq_self_iff.2, List.reverse_reverse]
  intro c hc
  rw [List.mem_reverse] at hc
  exact bne_iff_ne.2 fun slash => whole (slash ▸ hc)

/-- The extension of a name with a dot after its leading dots begins at the last dot. -/
theorem exists_extension (whole : '/' ∉ name) (dotted : '.' ∈ name.dropWhile (· == '.')) :
    ∃ front after, name = front ++ '.' :: after ∧ '.' ∉ after ∧ extension name = '.' :: after := by
  have split := List.takeWhile_append_dropWhile (p := (· == '.')) (l := name)
  have parts := Imports.qualifierOf_append_simpleNameOf dotted
  refine ⟨name.takeWhile (· == '.') ++ Imports.qualifierOf (name.dropWhile (· == '.')),
    Imports.simpleNameOf (name.dropWhile (· == '.')), ?_, fun mem => ?_, ?_⟩
  · rw [List.append_assoc, parts, split]
  · rw [Imports.simpleNameOf, List.mem_reverse] at mem
    have other := List.all_eq_true.1 List.all_takeWhile _ mem
    exact absurd other (by decide)
  · rw [extension, baseName_of_not_mem whole]
    rw [if_pos (List.contains_iff_mem.2 dotted)]
    rfl

theorem extension_eq_nil (whole : '/' ∉ name) (plain : '.' ∉ name.dropWhile (· == '.')) :
    extension name = [] := by
  rw [extension, baseName_of_not_mem whole]
  rw [if_neg fun dotted => plain (List.contains_iff_mem.1 dotted)]

/-- An extension in small letters that begins with its only dot. -/
structure IsPlainExtension (x : String) : Prop where
  dotted : ∃ stem, x.toList = '.' :: stem ∧ '.' ∉ stem
  small : lower x.toList = x.toList

/-! ### Files directly in a directory -/

namespace Entry

variable {root : List Char} {own : String} {names more : List String}

/-- The path of a directory up to the names in it. -/
def pathInto (root : List Char) : List Char :=
  if root.getLast? = some '/' then root else root ++ ['/']

theorem join_eq (nonempty : root ≠ []) (h : IsName own) :
    join root own.toList = pathInto root ++ own.toList := by
  have relative : own.toList.head? ≠ some '/' := fun first =>
    h.whole (List.mem_of_mem_head? first)
  rw [join, beq_eq_false_iff_ne.2 relative, List.isEmpty_eq_false_iff.2 nonempty, Bool.or_false,
    if_neg Bool.false_ne_true, pathInto]
  simp only [beq_iff_eq]
  split
  · rfl
  · rw [List.append_assoc]
    rfl

/-- Of the paths into a directory only that of one name ends in a name. -/
theorem eq_of_pathBelow_eq_join (nonempty : root ≠ []) (h : IsName own) (h' : ∀ n ∈ names, IsName n)
    (some : names ≠ []) (same : pathBelow root names = join root own.toList) : names = [own] := by
  have further (start : List Char) (hstart : start ≠ []) (names : List String)
      (h' : ∀ n ∈ names, IsName n) : ∃ rest, pathBelow start names = start ++ rest ∧
        (names ≠ [] → start.getLast? ≠ Option.some '/' → '/' ∈ rest) := by
    induction names generalizing start with
    | nil => exact ⟨[], (List.append_nil _).symm, fun e => absurd rfl e⟩
    | cons n names ih =>
      have own := h' n List.mem_cons_self
      have joined := join_eq hstart own
      obtain ⟨rest, below, _⟩ := ih (join start n.toList)
        (by rw [joined]; exact List.append_ne_nil_of_right_ne_nil _ own.nonempty)
        fun m hm => h' m (List.mem_cons_of_mem _ hm)
      rw [pathBelow, List.foldl_cons, ← pathBelow, below, joined, pathInto]
      split
      · refine ⟨n.toList ++ rest, List.append_assoc _ _ _, fun _ other => absurd ‹_› other⟩
      · refine ⟨'/' :: n.toList ++ rest, ?_, fun _ _ => List.mem_cons_self⟩
        simp only [List.append_assoc, List.cons_append, List.nil_append]
  cases names with
  | nil => exact absurd rfl some
  | cons n names =>
    have hn := h' n List.mem_cons_self
    have joined := join_eq nonempty hn
    obtain ⟨rest, below, slashed⟩ := further (join root n.toList)
      (by rw [joined]; exact List.append_ne_nil_of_right_ne_nil _ hn.nonempty) names
      fun m hm => h' m (List.mem_cons_of_mem _ hm)
    rw [pathBelow, List.foldl_cons, ← pathBelow, below, joined, join_eq nonempty h,
      List.append_assoc, List.append_cancel_left_eq] at same
    cases names with
    | nil =>
      rw [pathBelow, List.foldl_nil, List.self_eq_append_right] at below
      rw [below, List.append_nil] at same
      rw [String.toList_inj.1 same]
    | cons m names =>
      have last : (join root n.toList).getLast? ≠ Option.some '/' := by
        rw [joined, List.getLast?_append_of_ne_nil _ hn.nonempty]
        exact fun slash => hn.whole (List.mem_of_getLast? slash)
      have slash := slashed (List.cons_ne_nil _ _) last
      exact absurd (same ▸ List.mem_append_right _ slash) h.whole

/-- A search finds a file directly in the directory if its name is accepted. -/
theorem singleton_mem_found {accept skip : String → Bool} {entries : List (String × Entry)}
    {bytes : List UInt8} (proper : (Entry.directory entries).Proper)
    (mem : (own, .file bytes) ∈ entries) :
    [own] ∈ found accept skip (.directory entries) ↔ accept own = true := by
  rw [found, List.mem_append]
  constructor
  · rintro (here | deep)
    · obtain ⟨⟨n, c⟩, hn, same⟩ := List.mem_map.1 here
      have taken := (List.mem_filter.1 hn).2
      rw [Bool.and_eq_true] at taken
      cases same
      exact taken.2
    · obtain ⟨x, hx, mem⟩ := List.mem_flatMap.1 deep
      rw [byName, List.mem_mergeSort, foundAll_eq] at hx
      obtain ⟨entry, hentry, rfl⟩ := List.mem_map.1 hx
      obtain ⟨inner, hinner, same⟩ := List.mem_map.1 mem
      cases proper with
      | directory _ _ all =>
        have proper := all entry (List.mem_filter.1 hentry).1
        exact absurd (List.cons.inj same).2 (proper.isName_of_mem_found hinner).1
  · intro taken
    refine .inl (List.mem_map.2 ⟨(own, .file bytes), List.mem_filter.2 ⟨?_, ?_⟩, rfl⟩)
    · exact List.mem_mergeSort.2 mem
    · exact taken

end Entry

end MonoTap.Files

namespace MonoTap

open Files (Entry IsName IsPlainExtension)
open Text (lower)

variable {e : Engine} {tree : Entry} {root name : String}

/-- The walk of a directory lists a file directly in it if it takes its name. -/
theorem mem_sourceFiles {p : Entry.Place} {entries : List (String × Entry)} {bytes : List UInt8}
    (proper : tree.Proper) (led : tree.locate root = .ok p) (kind : p.entry = .directory entries)
    (mem : (name, .file bytes) ∈ entries) :
    String.ofList (Files.join root.toList name.toList) ∈ e.sourceFiles tree root ↔
      e.accepts name = true := by
  have inner : (Entry.directory entries).Proper := kind ▸ (Entry.in_of_locate led).proper proper
  have own : IsName name := by
    cases inner with
    | directory _ names _ => exact names _ mem
  have nonempty : root.toList ≠ [] := by
    intro empty
    rw [← String.ofList_toList (s := root), Entry.locate_ofList, if_pos (.inl empty)] at led
    cases led
  rw [Engine.sourceFiles, led, ← Entry.singleton_mem_found inner mem]
  dsimp only
  rw [kind]
  dsimp only
  rw [Entry.search_eq, List.mem_map]
  constructor
  · rintro ⟨names, hnames, same⟩
    have named := inner.isName_of_mem_found hnames
    rw [String.ofList_inj] at same
    rwa [Entry.eq_of_pathBelow_eq_join nonempty own named.2 named.1 same] at hnames
  · exact fun mem => ⟨[name], mem, rfl⟩

/-- What a preview takes by its name the walk lists too. -/
theorem accepts_of_preview (whole : '/' ∉ name.toList)
    (sigma : 'Σ' ∉ Files.extension name.toList) (taken : Service.accepts e.settings name = true) :
    e.accepts name = true := by
  rw [Service.accepts, List.contains_iff_mem] at taken
  rw [Engine.accepts, List.any_eq_true]
  refine ⟨_, taken, ?_⟩
  rw [String.toList_ofList, Text.lower_lower sigma, Text.endsIn_iff]
  by_cases dotted : '.' ∈ name.toList.dropWhile (· == '.')
  · obtain ⟨front, after, split, _, found⟩ := Files.exists_extension whole dotted
    rw [found] at sigma ⊢
    have own : 'Σ' ∉ after := fun mem => sigma (List.mem_cons_of_mem _ mem)
    obtain ⟨start, same⟩ := Text.lower_append_dot front own
    rw [split, same, Text.lower_of_not_mem sigma, Text.lower_of_not_mem own]
    exact List.suffix_append _ _
  · rw [Files.extension_eq_nil whole dotted]
    exact List.nil_suffix

/-- What the walk lists a preview takes, among names with an extension, if the settings have plain
extensions only. -/
theorem preview_of_accepts (plain : ∀ x ∈ e.settings.extensions, IsPlainExtension x)
    (whole : '/' ∉ name.toList) (sigma : 'Σ' ∉ Files.extension name.toList)
    (dotted : '.' ∈ name.toList.dropWhile (· == '.')) (taken : e.accepts name = true) :
    Service.accepts e.settings name = true := by
  rw [Engine.accepts, List.any_eq_true] at taken
  obtain ⟨x, mem, ends⟩ := taken
  obtain ⟨stem, written, single⟩ := (plain x mem).dotted
  obtain ⟨front, after, split, last, found⟩ := Files.exists_extension whole dotted
  rw [found] at sigma
  have own : 'Σ' ∉ after := fun mem => sigma (List.mem_cons_of_mem _ mem)
  obtain ⟨start, same⟩ := Text.lower_append_dot front own
  rw [(plain x mem).small, Text.endsIn_iff, split, same, written] at ends
  have last' : '.' ∉ lower after := by
    rwa [Text.lower_of_not_mem own, Text.dot_mem_flatMap_lowerChar]
  have stems := Text.eq_of_dot_suffix ends single last'
  have dot : Text.lowerChar '.' = ['.'] := by decide
  rw [Service.accepts, List.contains_iff_mem, found, Text.lower_of_not_mem sigma, List.flatMap_cons,
    dot, ← Text.lower_of_not_mem own, ← stems]
  rw [List.singleton_append, ← written, String.ofList_toList]
  exact mem

/-- A preview is refused as unsupported exactly if the name of its file is not taken. -/
theorem preview_unsupported_iff (r : Service.PreviewRequest) :
    (∃ u, Service.preview e r = .error (.unsupported u)) ↔
      ¬Service.accepts e.settings r.file = true := by
  rw [Service.preview]
  by_cases taken : Service.accepts e.settings r.file = true
  · rw [if_pos taken]
    refine iff_of_false ?_ fun other => other taken
    rintro ⟨u, refused⟩
    cases migrated : e.migrateText r.file r.source with
    | error fault =>
      rw [migrated] at refused
      cases refused
    | ok migration =>
      rw [migrated] at refused
      cases reported : e.lane.report [migration] with
      | error fault =>
        simp only [reported, Except.mapError, bind, Except.bind] at refused
        cases refused
      | ok report =>
        simp only [reported, Except.mapError, bind, Except.bind] at refused
        cases refused
  · rw [if_neg taken]
    exact iff_of_true ⟨_, rfl⟩ taken

/-- The service refuses a request for a preview exactly if the name of the file is not taken. -/
theorem not_refused_iff (nonempty : name.toList ≠ []) (source : String) :
    (∀ reply, Service.replyPreview e
        (some (.record [("source", .text source), ("file_path", .text name)])) = .ok reply →
      reply.status ≠ 400) ↔ Service.accepts e.settings name = true := by
  have asked : Service.PreviewRequest.ofBody
      (some (.record [("source", .text source), ("file_path", .text name)])) = .ok ⟨source, name⟩ := by
    have some : name.isEmpty = false := by
      rwa [Bool.eq_false_iff, ne_eq, String.isEmpty_iff, ← String.toList_eq_nil_iff]
    have read : Service.fieldOf (.record [("source", .text source), ("file_path", .text name)])
        "file_path" Service.standardFile true = .ok name := by
      show (if (true && name.isEmpty) = true then _ else _) = _
      rw [some, Bool.and_false, if_neg Bool.false_ne_true]
    show Document.Checked.app _ (Service.fieldOf (.record _) "file_path" _ true) = _
    rw [read]
    rfl
  have refused := preview_unsupported_iff (e := e) ⟨source, name⟩
  rw [Service.replyPreview, asked, ← not_iff_not, ← refused]
  dsimp only
  cases Service.preview e ⟨source, name⟩ with
  | ok value =>
    refine iff_of_false (fun other => other fun reply replied => ?_) (fun ⟨_, h⟩ => by cases h)
    cases replied
    exact Nat.ne_of_lt (by decide : 200 < 400)
  | error failure =>
    cases failure with
    | unsupported u => exact iff_of_true (fun fine => fine _ rfl rfl) ⟨u, rfl⟩
    | engine f =>
      exact iff_of_false (fun other => other fun reply replied => by cases replied)
        (fun ⟨_, h⟩ => by cases h)

/-- A file directly in the walked directory of a proper tree. Whatever the extensions of the settings, the
walk lists it if a preview of a file of its name is not refused. If the extensions are plain ones, a
preview is not refused exactly if the walk lists it and its name has an extension. -/
theorem preview_agrees_with_walk (e : Engine) (tree : Entry) (root name : String) (p : Entry.Place)
    (entries : List (String × Entry)) (bytes : List UInt8) (source : String) (proper : tree.Proper)
    (led : tree.locate root = .ok p) (kind : p.entry = .directory entries)
    (mem : (name, .file bytes) ∈ entries) (sigma : 'Σ' ∉ Files.extension name.toList) :
    let previewed := ∀ reply, Service.replyPreview e
        (some (.record [("source", .text source), ("file_path", .text name)])) = .ok reply →
      reply.status ≠ 400
    let listed := String.ofList (Files.join root.toList name.toList) ∈ e.sourceFiles tree root
    (previewed → listed) ∧
      ((∀ x ∈ e.settings.extensions, IsPlainExtension x) →
        (previewed ↔ listed ∧ Files.extension name.toList ≠ [])) := by
  intro previewed listed
  have inner : (Entry.directory entries).Proper := kind ▸ (Entry.in_of_locate led).proper proper
  have own : IsName name := by
    cases inner with
    | directory _ names _ => exact names _ mem
  have asked : previewed ↔ Service.accepts e.settings name = true :=
    not_refused_iff own.nonempty source
  have walked : listed ↔ e.accepts name = true := mem_sourceFiles proper led kind mem
  rw [asked, walked]
  refine ⟨accepts_of_preview own.whole sigma, fun plain => ⟨fun taken => ?_, fun taken => ?_⟩⟩
  · refine ⟨accepts_of_preview own.whole sigma taken, fun none => ?_⟩
    rw [Service.accepts, List.contains_iff_mem, none] at taken
    obtain ⟨stem, written, _⟩ := (plain _ taken).dotted
    cases written
  · refine preview_of_accepts plain own.whole sigma ?_ taken.1
    exact Decidable.byContradiction fun undotted =>
      taken.2 (Files.extension_eq_nil own.whole undotted)

/-- A directory with one file. -/
def singleFile (name : String) : Entry :=
  .directory [(name, .file [])]

theorem preview_agrees_with_walk_of_upper_case :
    (∀ reply, Service.replyPreview ⟨Lane.tap, default⟩
        (some (.record [("source", .text "class B {}"), ("file_path", .text "B.JAVA")])) = .ok reply →
      reply.status ≠ 400) ∧
    "./B.JAVA" ∈ (⟨Lane.tap, default⟩ : Engine).sourceFiles (singleFile "B.JAVA") "." := by
  have proper : (singleFile "B.JAVA").Proper :=
    .directory (by decide) (by decide)
      (List.forall_mem_cons.2 ⟨.file _, fun _ mem => by cases mem⟩)
  have plain : ∀ x ∈ (default : Settings).extensions, IsPlainExtension x :=
    List.forall_mem_cons.2 ⟨⟨⟨_, rfl, by decide⟩, by decide +kernel⟩, fun _ mem => by cases mem⟩
  have agrees := preview_agrees_with_walk ⟨Lane.tap, default⟩ (singleFile "B.JAVA") "." "B.JAVA"
    ⟨singleFile "B.JAVA", []⟩ _ [] "class B {}" proper rfl rfl List.mem_cons_self (by decide)
  have taken : Service.accepts (default : Settings) "B.JAVA" = true := by decide +kernel
  have previewed := (not_refused_iff (e := ⟨Lane.tap, default⟩) (by decide) "class B {}").2 taken
  exact ⟨previewed, ((agrees.2 plain).1 previewed).1⟩

end MonoTap

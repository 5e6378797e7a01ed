import Mathlib.Data.List.Perm.Basic
import MonoTap.Migration.Engine
import MonoTap.Proofs.Segments
import MonoTap.Proofs.SourceNames

/-!
# The files that a search lists

A search goes through a directory by names: first its own files, then its directories. So it lists the
files that it is to find, each once, in an order that only their names decide. Two trees that differ in the
order of the entries of their directories give the same list.
-/

set_option autoImplicit false

namespace MonoTap.Text

/-- Parts without the separator, joined by it, are the parts of the whole. -/
theorem splitAt_joinWith {sep : Char} {parts : List (List Char)} (some : parts ≠ [])
    (whole : ∀ part ∈ parts, sep ∉ part) : splitAt sep (joinWith [sep] parts) = parts := by
  induction parts with
  | nil => exact absurd rfl some
  | cons part parts ih =>
    have own := splitAt_of_not_mem (whole part List.mem_cons_self)
    cases parts with
    | nil => exact own
    | cons next parts =>
      have rest := ih (List.cons_ne_nil next parts) fun p hp => whole p (List.mem_cons_of_mem part hp)
      rw [joinWith_cons_cons, List.append_assoc, List.singleton_append, splitAt_append_sep, own, rest]
      rfl

end MonoTap.Text

namespace MonoTap.Files

namespace Entry

variable {accept skip : String → Bool} {e : Entry} {name : String} {names more : List String}
  {entries others : List (String × Entry)}

/-! ### What a search finds -/

theorem nil_notMem_found (proper : e.Proper) : [] ∉ found accept skip e :=
  fun mem => (proper.isName_of_mem_found mem).1 rfl

/-- One step into a directory: a file of its own, or what is found in one of its directories. -/
theorem cons_mem_found :
    name :: names ∈ found accept skip (directory entries) ↔
      names = [] ∧ accept name = true ∧ (∃ bytes, (name, file bytes) ∈ entries) ∨
        skip name = false ∧ ∃ inner, (name, inner) ∈ entries ∧ names ∈ found accept skip inner := by
  rw [found, List.mem_append]
  apply or_congr
  · rw [List.mem_map]
    constructor
    · rintro ⟨⟨n, inner⟩, mem, same⟩
      rw [List.mem_filter, byName, List.mem_mergeSort, Bool.and_eq_true] at mem
      cases same
      cases inner with
      | file bytes => exact ⟨rfl, mem.2.2, bytes, mem.1⟩
      | directory => simp [isDirectory] at mem
    · rintro ⟨rfl, accepted, bytes, mem⟩
      refine ⟨(name, file bytes), ?_, rfl⟩
      rw [List.mem_filter, byName, List.mem_mergeSort]
      exact ⟨mem, by simp [isDirectory, accepted]⟩
  · simp only [List.mem_flatMap, byName, List.mem_mergeSort, foundAll_eq, List.mem_map,
      List.mem_filter, Bool.and_eq_true, Bool.not_eq_true']
    constructor
    · rintro ⟨_, ⟨⟨n, inner⟩, ⟨mem, -, kept⟩, rfl⟩, inside⟩
      obtain ⟨rest, found, same⟩ := List.mem_map.1 inside
      cases same
      exact ⟨kept, inner, mem, found⟩
    · rintro ⟨kept, inner, mem, inside⟩
      cases inner with
      | file bytes => simp [found] at inside
      | directory inner => exact ⟨_, ⟨_, ⟨mem, rfl, kept⟩, rfl⟩, List.mem_map_of_mem inside⟩

/-- What a search finds: the files with an accepted name below directories that are not skipped. -/
theorem mem_found_iff (proper : e.Proper) : names ∈ found accept skip e ↔
    ∃ directories own bytes, names = directories ++ [own] ∧ e.at? names = some (file bytes) ∧
      accept own = true ∧ ∀ d ∈ directories, skip d = false := by
  -- along the names, as the search goes down the tree by them
  induction names generalizing e with
  | nil =>
    constructor
    · intro mem
      exact absurd mem (nil_notMem_found proper)
    · rintro ⟨directories, own, bytes, split, -⟩
      simp at split
  | cons name names ih =>
    cases e with
    | file bytes => simp [found, at?, child?]
    | directory entries =>
      rw [cons_mem_found]
      cases proper with
      | directory distinct _ all =>
        constructor
        · rintro (⟨rfl, accepted, bytes, mem⟩ | ⟨kept, inner, mem, inside⟩)
          · refine ⟨[], name, bytes, rfl, ?_, accepted, by simp⟩
            rw [at?, child?_of_mem distinct mem]
            rfl
          · obtain ⟨directories, own, bytes, rfl, here, accepted, open_⟩ := (ih (all _ mem)).1 inside
            refine ⟨name :: directories, own, bytes, rfl, ?_, accepted, ?_⟩
            · rw [at?, child?_of_mem distinct mem]
              exact here
            · exact List.forall_mem_cons.2 ⟨kept, open_⟩
        · rintro ⟨directories, own, bytes, split, here, accepted, open_⟩
          rw [at?, Option.bind_eq_some_iff] at here
          obtain ⟨inner, led, here⟩ := here
          have mem := mem_of_child? led
          cases directories with
          | nil =>
            obtain ⟨rfl, rfl⟩ := List.cons.inj split
            cases here
            exact Or.inl ⟨rfl, accepted, bytes, mem⟩
          | cons d directories =>
            obtain ⟨rfl, rfl⟩ := List.cons.inj split
            obtain ⟨kept, open_⟩ := List.forall_mem_cons.1 open_
            exact Or.inr ⟨kept, inner, mem,
              (ih (all _ mem)).2 ⟨directories, own, bytes, rfl, here, accepted, open_⟩⟩

end Entry

/-! ### The order of a search -/

/-- Whether one file stands before another in a list of files under a directory, each given by the names on
the way to it: within a directory the files come by name, then the directories by name. -/
inductive Precedes : List String → List String → Prop
  | files {own other : String} (less : own < other) : Precedes [own] [other]
  | fileFirst {own d : String} {names : List String} (deep : names ≠ []) : Precedes [own] (d :: names)
  | directories {d d' : String} {names more : List String} (deep : names ≠ []) (deep' : more ≠ [])
      (less : d < d') : Precedes (d :: names) (d' :: more)
  | within {d : String} {names more : List String} (inner : Precedes names more) :
      Precedes (d :: names) (d :: more)

theorem Precedes.ne_nil {names more : List String} (h : Precedes names more) : names ≠ [] := by
  cases h <;> simp

theorem Precedes.ne_nil' {names more : List String} (h : Precedes names more) : more ≠ [] := by
  cases h <;> simp

theorem Precedes.asymm {names more : List String} (h : Precedes names more) : ¬ Precedes more names := by
  induction h with
  | files less =>
    intro back
    cases back with
    | files less' => exact String.lt_asymm less less'
    | fileFirst deep => exact deep rfl
    | directories deep => exact deep rfl
    | within inner => exact inner.ne_nil rfl
  | fileFirst deep =>
    intro back
    cases back with
    | files => exact deep rfl
    | fileFirst deep' => exact deep' rfl
    | directories _ deep' => exact deep' rfl
    | within inner => exact inner.ne_nil' rfl
  | directories deep deep' less =>
    intro back
    cases back with
    | files => exact deep rfl
    | fileFirst => exact deep' rfl
    | directories _ _ less' => exact String.lt_asymm less less'
    | within => exact String.lt_irrefl _ less
  | within inner ih =>
    intro back
    cases back with
    | files less => exact String.lt_irrefl _ less
    | fileFirst => exact inner.ne_nil' rfl
    | directories _ _ less => exact String.lt_irrefl _ less
    | within back => exact ih back

namespace Entry

variable {accept skip : String → Bool} {e e' : Entry} {name : String} {names more : List String}
  {entries others : List (String × Entry)}

theorem pairwise_byName {α : Type} {entries : List (String × α)}
    (distinct : (entries.map Prod.fst).Nodup) : (byName entries).Pairwise fun x y => x.1 < y.1 := by
  have sorted := @List.pairwise_mergeSort (String × α) (fun a b => decide (a.1 ≤ b.1))
    (fun a b c first second => by
      simp only [decide_eq_true_eq] at first second ⊢
      exact String.le_trans first second)
    (fun a b => by
      simp only [Bool.or_eq_true, decide_eq_true_eq]
      exact String.le_total a.1 b.1) entries
  have differ : (byName entries).Pairwise fun x y => x.1 ≠ y.1 :=
    List.pairwise_map.1 (((List.mergeSort_perm entries _).map Prod.fst).nodup_iff.2 distinct)
  apply (List.pairwise_and_iff.2 ⟨sorted, differ⟩).imp
  intro x y h
  have le : x.1 ≤ y.1 := of_decide_eq_true h.1
  exact String.not_le.1 fun back => h.2 (String.le_antisymm le back)

/-- A search lists what it finds in order. -/
theorem Proper.pairwise_found (h : e.Proper) : (found accept skip e).Pairwise Precedes := by
  induction h with
  | file bytes => simp [found]
  | @directory entries distinct named inner ih =>
    have deep {name : String} {below : List (List String)}
        (mem : (name, below) ∈ foundAll accept skip entries) :
        below.Pairwise Precedes ∧ ∀ names ∈ below, ∃ rest, rest ≠ [] ∧ names = name :: rest := by
      rw [foundAll_eq, List.mem_map] at mem
      obtain ⟨entry, listed, same⟩ := mem
      have own := (List.mem_filter.1 listed).1
      cases same
      constructor
      · rw [List.pairwise_map]
        exact (ih entry own).imp .within
      · intro names mem
        obtain ⟨rest, hrest, rfl⟩ := List.mem_map.1 mem
        exact ⟨rest, ((inner entry own).isName_of_mem_found hrest).1, rfl⟩
    have directories : ((foundAll accept skip entries).map Prod.fst).Nodup := by
      rw [foundAll_eq, List.map_map]
      exact distinct.sublist (List.filter_sublist.map Prod.fst)
    rw [found, List.pairwise_append]
    refine ⟨?_, ?_, ?_⟩
    · rw [List.pairwise_map]
      exact ((pairwise_byName distinct).sublist List.filter_sublist).imp .files
    · rw [List.pairwise_flatMap]
      constructor
      · intro x mem
        rw [byName, List.mem_mergeSort] at mem
        exact (deep mem).1
      · apply (pairwise_byName directories).imp_of_mem
        intro x y hx hy less first mem second mem'
        rw [byName, List.mem_mergeSort] at hx hy
        obtain ⟨rest, some, rfl⟩ := (deep hx).2 first mem
        obtain ⟨rest', some', rfl⟩ := (deep hy).2 second mem'
        exact .directories some some' less
    · intro first mem second mem'
      obtain ⟨⟨own, _⟩, -, rfl⟩ := List.mem_map.1 mem
      obtain ⟨x, hx, mem'⟩ := List.mem_flatMap.1 mem'
      rw [byName, List.mem_mergeSort] at hx
      obtain ⟨rest, some, rfl⟩ := (deep hx).2 second mem'
      exact .fileFirst some

/-! ### Other orders of entries -/

/-- Whether two trees hold the same, though their directories may list their entries in other orders. -/
inductive Relisted : Entry → Entry → Prop
  | file (bytes : List UInt8) : Relisted (.file bytes) (.file bytes)
  | directory {entries others : List (String × Entry)}
      (same : (entries.map Prod.fst).Perm (others.map Prod.fst))
      (inner : ∀ name e e', (name, e) ∈ entries → (name, e') ∈ others → Relisted e e') :
      Relisted (.directory entries) (.directory others)

theorem Relisted.symm (h : e.Relisted e') : e'.Relisted e := by
  induction h with
  | file bytes => exact .file bytes
  | directory same inner ih =>
    exact .directory same.symm fun name e e' mem mem' => ih name e' e mem' mem

theorem Relisted.isDirectory (h : e.Relisted e') : e'.isDirectory = e.isDirectory := by
  cases h <;> rfl

theorem Relisted.child? {c : Entry} (h : e.Relisted e') (proper : e'.Proper)
    (found : e.child? name = some c) : ∃ c', e'.child? name = some c' ∧ c.Relisted c' := by
  cases h with
  | file bytes => cases found
  | directory same inner =>
    have mem := mem_of_child? found
    have known := same.mem_iff.1 (List.mem_map_of_mem (f := Prod.fst) mem)
    obtain ⟨⟨_, c'⟩, mem', rfl⟩ := List.mem_map.1 known
    cases proper with
    | directory distinct => exact ⟨c', child?_of_mem distinct mem', inner _ c c' mem mem'⟩

theorem Relisted.at? {c : Entry} (h : e.Relisted e') (proper : e'.Proper)
    (found : e.at? names = some c) : ∃ c', e'.at? names = some c' ∧ c.Relisted c' := by
  induction names generalizing e e' with
  | nil =>
    cases found
    exact ⟨e', rfl, h⟩
  | cons name names ih =>
    rw [Entry.at?, Option.bind_eq_some_iff] at found
    obtain ⟨inner, led, found⟩ := found
    obtain ⟨inner', led', relisted⟩ := h.child? proper led
    obtain ⟨c', found', relisted'⟩ := ih relisted (proper.child? led') found
    refine ⟨c', ?_, relisted'⟩
    rw [Entry.at?, led']
    exact found'

theorem Relisted.found_subset (h : e.Relisted e') (proper : e.Proper) (proper' : e'.Proper)
    (mem : names ∈ found accept skip e) : names ∈ found accept skip e' := by
  obtain ⟨directories, own, bytes, split, here, accepted, kept⟩ := (mem_found_iff proper).1 mem
  obtain ⟨c', here', same⟩ := h.at? proper' here
  cases same
  exact (mem_found_iff proper').2 ⟨directories, own, bytes, split, here', accepted, kept⟩

/-- What a search finds, and in which order, does not depend on the order of entries. -/
theorem Relisted.found_eq (h : e.Relisted e') (proper : e.Proper) (proper' : e'.Proper) :
    found accept skip e' = found accept skip e := by
  have same : (found accept skip e').Perm (found accept skip e) := by
    apply (List.perm_ext_iff_of_nodup proper'.nodup_found proper.nodup_found).2
    intro names
    exact ⟨h.symm.found_subset proper' proper, h.found_subset proper proper'⟩
  apply same.eq_of_pairwise _ proper'.pairwise_found proper.pairwise_found
  intro names more _ _ first second
  exact absurd second first.asymm

/-- One part of a path leads to the same place in both trees. -/
theorem Relisted.step (h : e.Relisted e') (proper' : e'.Proper) {p p' q : Place} {part : List Char}
    (inside : p.In e) (inside' : p'.In e') (same : p'.names = p.names) (led : Entry.step p part = .ok q) :
    ∃ q', Entry.step p' part = .ok q' ∧ q'.names = q.names := by
  have relisted : p.entry.Relisted p'.entry := by
    obtain ⟨c, here, relisted⟩ := h.at? proper' inside.at?
    rw [← same, inside'.at?] at here
    cases here
    exact relisted
  rw [Entry.step] at led ⊢
  rw [relisted.isDirectory]
  split at led
  · cases led
  · rename_i directory
    rw [if_neg directory]
    split at led
    · rename_i own
      cases led
      rw [if_pos own]
      exact ⟨p', rfl, same⟩
    · rename_i other
      rw [if_neg other]
      split at led
      · rename_i above
        rw [if_pos above]
        cases inside with
        | root => cases led
        | child outer found =>
          cases led
          cases inside' with
          | root => simp [Place.names] at same
          | child outer' found' =>
            refine ⟨_, rfl, ?_⟩
            rw [Place.names_child, Place.names_child] at same
            exact (List.append_inj' same rfl).1
      · rename_i below
        rw [if_neg below]
        dsimp only at led ⊢
        split at led
        · cases led
        · rename_i short
          rw [if_neg short]
          split at led
          · rename_i c found
            obtain ⟨c', found', -⟩ := relisted.child? (inside'.proper proper') found
            cases led
            rw [found']
            refine ⟨_, rfl, ?_⟩
            rw [Place.names_child, Place.names_child, same]
          · cases led

theorem Relisted.locate (h : e.Relisted e') (proper' : e'.Proper) {path : String} {p : Place}
    (led : e.locate path = .ok p) : ∃ p', e'.locate path = .ok p' ∧ p.entry.Relisted p'.entry := by
  have parts (ps : List (List Char)) (q q' : Place) (inside : q.In e) (inside' : q'.In e')
      (same : q'.names = q.names) (led : ps.foldlM Entry.step q = .ok p) :
      ∃ p', ps.foldlM Entry.step q' = .ok p' ∧ p'.In e' ∧ p'.names = p.names := by
    induction ps generalizing q q' with
    | nil =>
      cases led
      exact ⟨q', rfl, inside', same⟩
    | cons part ps ih =>
      rw [List.foldlM_cons] at led ⊢
      cases stepped : Entry.step q part with
      | error fault =>
        rw [stepped] at led
        cases led
      | ok next =>
        rw [stepped] at led
        obtain ⟨next', stepped', same'⟩ := h.step proper' inside inside' same stepped
        rw [stepped']
        exact ih next next' (inside.step stepped) (inside'.step stepped') same' led
  have placed := (in_of_locate led).at?
  rw [Entry.locate] at led ⊢
  split at led
  · cases led
  · rename_i relative
    rw [if_neg relative]
    obtain ⟨p', led', inside', same⟩ := parts _ _ _ .root .root rfl led
    obtain ⟨c, here, relisted⟩ := h.at? proper' placed
    rw [← same, inside'.at?] at here
    cases here
    exact ⟨p', led', relisted⟩

/-! ### Paths -/

theorem pathBelow_eq {root : List Char} (nonempty : root ≠ []) (h : ∀ n ∈ names, IsName n)
    (some : names ≠ []) : pathBelow root names =
      pathInto root ++ Text.joinWith ['/'] (names.map String.toList) := by
  induction names generalizing root with
  | nil => exact absurd rfl some
  | cons n names ih =>
    have own := h n List.mem_cons_self
    rw [pathBelow, List.foldl_cons, ← pathBelow, join_eq nonempty own]
    cases names with
    | nil => rfl
    | cons next names =>
      have open_ : pathInto (pathInto root ++ n.toList) = pathInto root ++ n.toList ++ ['/'] := by
        rw [pathInto, if_neg]
        rw [List.getLast?_append_of_ne_nil _ own.nonempty]
        intro last
        exact own.whole (List.mem_of_getLast? last)
      rw [ih (List.append_ne_nil_of_right_ne_nil _ own.nonempty)
        (fun m hm => h m (List.mem_cons_of_mem n hm)) (List.cons_ne_nil _ _), open_]
      simp only [List.map_cons, Text.joinWith_cons_cons, List.append_assoc]

/-- Different names lead by different paths. -/
theorem pathBelow_inj {root : List Char} (nonempty : root ≠ []) (h : ∀ n ∈ names, IsName n)
    (h' : ∀ n ∈ more, IsName n) (some : names ≠ []) (some' : more ≠ [])
    (same : pathBelow root names = pathBelow root more) : names = more := by
  rw [pathBelow_eq nonempty h some, pathBelow_eq nonempty h' some'] at same
  have parts := congrArg (Text.splitAt '/') (List.append_cancel_left same)
  have whole {names : List String} (h : ∀ n ∈ names, IsName n) :
      ∀ part ∈ names.map String.toList, '/' ∉ part := by
    intro part mem
    obtain ⟨n, hn, rfl⟩ := List.mem_map.1 mem
    exact (h n hn).whole
  rw [Text.splitAt_joinWith (by simpa using some) (whole h),
    Text.splitAt_joinWith (by simpa using some') (whole h')] at parts
  exact List.map_injective_iff.2 (fun _ _ => String.toList_inj.1) parts

end Entry

end MonoTap.Files

namespace MonoTap.Engine

open Files (Entry Precedes)

variable {e : Engine}

/-- Whether names lead from a directory to a file that a search of the directory is to list: its name ends,
in any letter case, in one of the extensions, and none of the directories on the way is left out. -/
def Eligible (e : Engine) (directory : Entry) (names : List String) : Prop :=
  ∃ directories own bytes, names = directories ++ [own] ∧
    directory.at? names = some (.file bytes) ∧
    (∃ extension ∈ e.settings.extensions,
      Text.lower extension.toList <:+ Text.lower own.toList) ∧
    ∀ d ∈ directories, d ∉ Files.skippedDirectories ∧ d ∉ e.settings.extraSkipped ∧
      d.toList.head? ≠ some '.'

theorem accepts_iff {name : String} : e.accepts name = true ↔
    ∃ extension ∈ e.settings.extensions, Text.lower extension.toList <:+ Text.lower name.toList := by
  simp only [accepts, List.any_eq_true, Text.endsIn_iff]

theorem skips_eq_false_iff {name : String} : e.skips name = false ↔
    name ∉ Files.skippedDirectories ∧ name ∉ e.settings.extraSkipped ∧
      name.toList.head? ≠ some '.' := by
  simp [skips, Files.isSkipped, and_assoc]

theorem sourceFiles_eq {tree : Entry} {root : String} {place : Entry.Place}
    (led : tree.locate root = .ok place) (kind : place.entry.isDirectory = true) :
    e.sourceFiles tree root = (Entry.found e.accepts e.skips place.entry).map fun names =>
      String.ofList (Entry.pathBelow root.toList names) := by
  rw [sourceFiles, led]
  dsimp only
  cases found : place.entry with
  | file bytes =>
    rw [found] at kind
    cases kind
  | directory entries => exact Entry.search_eq _ _

/-- A search of a directory lists the files that it is to list and no others, each once, and in the same
order however the directories list their entries. -/
theorem sourceFiles_lists_eligible (e : Engine) {tree : Entry} {root : String} {place : Entry.Place}
    (proper : tree.Proper) (led : tree.locate root = .ok place)
    (kind : place.entry.isDirectory = true) :
    ∃ found : List (List String),
      e.sourceFiles tree root =
        found.map (fun names => String.ofList (Entry.pathBelow root.toList names)) ∧
      (∀ names, names ∈ found ↔ e.Eligible place.entry names) ∧
      found.Pairwise Precedes ∧
      (e.sourceFiles tree root).Nodup ∧
      ∀ other : Entry, other.Proper → tree.Relisted other →
        e.sourceFiles other root = e.sourceFiles tree root := by
  have inner : place.entry.Proper := (Entry.in_of_locate led).proper proper
  refine ⟨Entry.found e.accepts e.skips place.entry, sourceFiles_eq led kind, ?_, inner.pairwise_found,
    ?_, ?_⟩
  · intro names
    rw [Entry.mem_found_iff inner, Eligible]
    simp only [accepts_iff, skips_eq_false_iff]
  · have nonempty : root.toList ≠ [] := by
      intro empty
      rw [← String.ofList_toList (s := root), Entry.locate_ofList, if_pos (.inl empty)] at led
      cases led
    rw [sourceFiles_eq led kind]
    apply inner.nodup_found.map_on
    intro names mem more mem' same
    obtain ⟨some, named⟩ := inner.isName_of_mem_found mem
    obtain ⟨some', named'⟩ := inner.isName_of_mem_found mem'
    exact Entry.pathBelow_inj nonempty named named' some some' (String.ofList_inj.1 same)
  · intro other proper' relisted
    obtain ⟨place', led', same⟩ := relisted.locate proper' led
    rw [sourceFiles_eq led' (same.isDirectory.trans kind), sourceFiles_eq led kind,
      same.found_eq inner ((Entry.in_of_locate led').proper proper')]

/-- A tree with a file of its own, a directory and a directory that is left out. -/
def mixedTree : Entry :=
  .directory [("src", .directory [("B.JAVA", .file [])]), ("build", .directory [("C.java", .file [])]),
    ("A.java", .file [])]

/-- The same tree with its entries in another order. -/
def mixedTreeAgain : Entry :=
  .directory [("A.java", .file []), ("build", .directory [("C.java", .file [])]),
    ("src", .directory [("B.JAVA", .file [])])]

theorem proper_file_in (name : String) (h : Files.IsName name) :
    (Entry.directory [(name, .file [])]).Proper :=
  .directory (List.nodup_singleton name) (List.forall_mem_singleton.2 h)
    (List.forall_mem_singleton.2 (.file []))

theorem proper_mixedTree : mixedTree.Proper :=
  .directory (by decide) (by decide) (List.forall_mem_cons.2 ⟨proper_file_in "B.JAVA" (by decide),
    List.forall_mem_cons.2 ⟨proper_file_in "C.java" (by decide),
      List.forall_mem_singleton.2 (.file [])⟩⟩)

theorem proper_mixedTreeAgain : mixedTreeAgain.Proper :=
  .directory (by decide) (by decide) (List.forall_mem_cons.2 ⟨.file [],
    List.forall_mem_cons.2 ⟨proper_file_in "C.java" (by decide),
      List.forall_mem_singleton.2 (proper_file_in "B.JAVA" (by decide))⟩⟩)

theorem relisted_mixedTree : mixedTree.Relisted mixedTreeAgain := by
  have single (name : String) : (Entry.directory [(name, .file [])]).Relisted
      (.directory [(name, .file [])]) := by
    apply Entry.Relisted.directory (.refl _)
    intro n e e' mem mem'
    cases List.mem_singleton.1 mem
    cases List.mem_singleton.1 mem'
    exact .file []
  apply Entry.Relisted.directory (by decide)
  intro name e e' mem mem'
  simp only [List.mem_cons, Prod.mk.injEq, List.not_mem_nil, or_false] at mem mem'
  rcases mem with ⟨rfl, rfl⟩ | ⟨rfl, rfl⟩ | ⟨rfl, rfl⟩
  · obtain rfl : e' = _ := by simpa using mem'
    exact single _
  · obtain rfl : e' = _ := by simpa using mem'
    exact single _
  · obtain rfl : e' = _ := by simpa using mem'
    exact .file []

/-- A file in a directory is listed, also if its extension is in capital letters; one in a directory that
is left out is not. -/
theorem sourceFiles_lists_eligible_of_mixedTree :
    let e : Engine := ⟨Lane.tap, default⟩
    mixedTree.Proper ∧ "./src/B.JAVA" ∈ e.sourceFiles mixedTree "." ∧
      ¬ e.Eligible mixedTree ["build", "C.java"] ∧
      e.sourceFiles mixedTreeAgain "." = e.sourceFiles mixedTree "." := by
  intro e
  have led : mixedTree.locate "." = .ok ⟨mixedTree, []⟩ := rfl
  obtain ⟨found, listed, eligible, -, -, other⟩ :=
    sourceFiles_lists_eligible e proper_mixedTree led rfl
  refine ⟨proper_mixedTree, ?_, ?_, other _ proper_mixedTreeAgain relisted_mixedTree⟩
  · rw [listed]
    refine List.mem_map.2 ⟨["src", "B.JAVA"], (eligible _).2 ?_, by decide⟩
    refine ⟨["src"], "B.JAVA", [], rfl, rfl, ⟨".java", by decide, by decide +kernel⟩, ?_⟩
    decide
  · rintro ⟨directories, own, bytes, split, -, -, kept⟩
    have ends : ["build"] ++ ["C.java"] = directories ++ [own] := split
    have first : directories = ["build"] := (List.append_inj' ends rfl).1.symm
    rw [first] at kept
    exact (kept "build" (by simp)).1 (by decide)

end MonoTap.Engine

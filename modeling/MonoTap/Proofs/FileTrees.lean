import Mathlib.Data.List.Nodup
import MonoTap.Files.Tree
import MonoTap.Proofs.Emission

/-!
# Trees with other bytes in their files

A tree in which only the bytes of files are others has the same entries under the same names. So a path
leads to the same place in both, and a file that is written to is the only one that changes. The files
that a search lists are each listed once, under a path that leads to them.
-/

set_option autoImplicit false

namespace MonoTap.Text

theorem splitAt_append_sep (sep : Char) (front back : List Char) :
    splitAt sep (front ++ sep :: back) = splitAt sep front ++ splitAt sep back := by
  induction front with
  | nil =>
    have here : splitAt sep (sep :: back) = [] :: splitAt sep back := by
      rw [splitAt, beq_self_eq_true, if_pos rfl]
    exact here
  | cons c front ih =>
    rw [List.cons_append, splitAt, splitAt, ih]
    split
    · rfl
    · cases pieces : splitAt sep front with
      | nil => exact absurd pieces (splitAt_ne_nil sep front)
      | cons piece more => rfl

end MonoTap.Text

namespace MonoTap.Files

/-- Whether a name can be that of an entry of a directory. -/
structure IsName (name : String) : Prop where
  nonempty : name.toList ≠ []
  whole : '/' ∉ name.toList
  own : name.toList ≠ ['.']
  below : name.toList ≠ ['.', '.']

instance (name : String) : Decidable (IsName name) :=
  decidable_of_iff (name.toList ≠ [] ∧ '/' ∉ name.toList ∧ name.toList ≠ ['.'] ∧
    name.toList ≠ ['.', '.'])
    ⟨fun ⟨a, b, c, d⟩ => ⟨a, b, c, d⟩, fun ⟨a, b, c, d⟩ => ⟨a, b, c, d⟩⟩

namespace Entry

/-- Whether the entries of each directory of a tree have names, and different ones. -/
inductive Proper : Entry → Prop
  | file (bytes : List UInt8) : Proper (.file bytes)
  | directory {entries : List (String × Entry)} (distinct : (entries.map Prod.fst).Nodup)
      (names : ∀ entry ∈ entries, IsName entry.1) (inner : ∀ entry ∈ entries, Proper entry.2) :
      Proper (.directory entries)

/-- What stands under some names. -/
def at? : List String → Entry → Option Entry
  | [], e => some e
  | name :: names, e => (e.child? name).bind (at? names)

mutual

/-- A tree with other bytes in its files: `f names bytes` for those under the names. -/
def revise (f : List String → List UInt8 → List UInt8) : Entry → Entry
  | .file bytes => .file (f [] bytes)
  | .directory entries => .directory (reviseAll f entries)

/-- The entries of a directory with other bytes in their files. -/
def reviseAll (f : List String → List UInt8 → List UInt8) :
    List (String × Entry) → List (String × Entry)
  | [] => []
  | (name, e) :: es => (name, revise (fun names => f (name :: names)) e) :: reviseAll f es

end

variable {f g : List String → List UInt8 → List UInt8} {e : Entry} {name : String}
  {names : List String} {entries : List (String × Entry)}

/-! ### Names -/

theorem child?_cons (entry : String × Entry) :
    (Entry.directory (entry :: entries)).child? name =
      if entry.1 = name then some entry.2 else (Entry.directory entries).child? name := by
  by_cases same : entry.1 = name
  · rw [child?, List.find?_cons, beq_iff_eq.2 same, if_pos same]
    rfl
  · rw [child?, List.find?_cons, beq_eq_false_iff_ne.2 same, if_neg same]
    rfl

theorem mem_of_child? {c : Entry} (h : (Entry.directory entries).child? name = some c) :
    (name, c) ∈ entries := by
  obtain ⟨⟨n, c⟩, found, rfl⟩ := Option.map_eq_some_iff.1 h
  have same := List.find?_some found
  rw [beq_iff_eq] at same
  exact same ▸ List.mem_of_find?_eq_some found

theorem child?_of_mem (distinct : (entries.map Prod.fst).Nodup) {entry : String × Entry}
    (mem : entry ∈ entries) : (Entry.directory entries).child? entry.1 = some entry.2 := by
  induction entries with
  | nil => cases mem
  | cons first entries ih =>
    rw [List.map_cons, List.nodup_cons] at distinct
    rw [child?_cons]
    rcases List.mem_cons.1 mem with rfl | mem
    · exact if_pos rfl
    · have other : first.1 ≠ entry.1 := fun same =>
        distinct.1 (List.mem_map.2 ⟨entry, mem, same.symm⟩)
      rw [if_neg other, ih distinct.2 mem]

theorem Proper.child? {c : Entry} (h : e.Proper) (found : e.child? name = some c) : c.Proper := by
  cases h with
  | file => cases found
  | directory distinct names inner => exact inner _ (mem_of_child? found)

theorem at?_append (names more : List String) :
    e.at? (names ++ more) = (e.at? names).bind (at? more) := by
  induction names generalizing e with
  | nil => rfl
  | cons name names ih =>
    rw [List.cons_append, at?, at?, Option.bind_assoc]
    exact congrArg _ (funext fun c => ih)

/-! ### Other bytes -/

theorem reviseAll_eq (f : List String → List UInt8 → List UInt8) (entries : List (String × Entry)) :
    reviseAll f entries = entries.map fun (n, e) => (n, e.revise fun names => f (n :: names)) := by
  induction entries with
  | nil => rw [reviseAll, List.map_nil]
  | cons entry entries ih => rw [reviseAll, ih, List.map_cons]

@[simp] theorem isDirectory_revise : (e.revise f).isDirectory = e.isDirectory := by
  cases e <;> rw [revise] <;> rfl

theorem child?_revise : (e.revise f).child? name =
    (e.child? name).map (revise fun names => f (name :: names)) := by
  cases e with
  | file bytes => rw [revise]; rfl
  | directory entries =>
    rw [revise]
    induction entries with
    | nil => rw [reviseAll]; rfl
    | cons entry entries ih =>
      rw [reviseAll, child?_cons, child?_cons, ih]
      by_cases same : entry.1 = name
      · rw [if_pos same, if_pos same, same]
        rfl
      · rw [if_neg same, if_neg same]

theorem at?_revise : (e.revise f).at? names =
    (e.at? names).map (revise fun more => f (names ++ more)) := by
  induction names generalizing e f with
  | nil => rfl
  | cons name names ih =>
    rw [at?, at?, child?_revise, Option.bind_map, Option.map_bind]
    exact congrArg _ (funext fun c => ih)

/-- The bytes of the files make the difference. -/
theorem Proper.revise_congr (h : e.Proper)
    (same : ∀ names bytes, e.at? names = some (.file bytes) → f names bytes = g names bytes) :
    e.revise f = e.revise g := by
  induction h generalizing f g with
  | file bytes => rw [revise, revise, same [] bytes rfl]
  | @directory entries distinct _ _ ih =>
    rw [revise, revise, reviseAll_eq, reviseAll_eq]
    refine congrArg _ (List.map_congr_left fun entry mem => congrArg (Prod.mk entry.1) ?_)
    refine ih entry mem fun names bytes found => same (entry.1 :: names) bytes ?_
    rw [at?, child?_of_mem distinct mem]
    exact found

theorem Proper.revise_eq_self (h : e.Proper)
    (same : ∀ names bytes, e.at? names = some (.file bytes) → f names bytes = bytes) :
    e.revise f = e := by
  induction h generalizing f with
  | file bytes => rw [revise, same [] bytes rfl]
  | @directory entries distinct _ _ ih =>
    rw [revise, reviseAll_eq]
    refine congrArg _ ((List.map_congr_left fun entry mem => ?_).trans entries.map_id)
    refine congrArg (Prod.mk entry.1) (ih entry mem fun names bytes found => ?_)
    refine same (entry.1 :: names) bytes ?_
    rw [at?, child?_of_mem distinct mem]
    exact found

theorem put_cons {new : List UInt8} (present : entries.any (·.1 == name) = true) :
    put new (name :: names) (.directory entries) = .directory (entries.map fun (n, old) =>
      if n == name then
        (name, put new names (((directory entries).child? name).getD (.directory [])))
      else (n, old)) := by
  rw [put.eq_def]
  dsimp only
  rw [if_pos present]

/-- Entering other bytes for a file gives the file these bytes and leaves the others as they are. -/
theorem Proper.put_revise (h : e.Proper) {old new : List UInt8}
    (found : e.at? names = some (.file old)) (here : g names old = new)
    (elsewhere : ∀ other, other ≠ names → g other = f other) :
    put new names (e.revise f) = e.revise g := by
  induction names generalizing e f g with
  | nil =>
    cases found
    rw [put, revise, here]
  | cons name names ih =>
    obtain ⟨c, inside, further⟩ := Option.bind_eq_some_iff.1 found
    cases h with
    | file => cases inside
    | @directory entries distinct _ inner =>
      have mem := mem_of_child? inside
      have entered : put new names (c.revise fun names => f (name :: names)) =
          c.revise fun names => g (name :: names) := by
        refine ih (inner _ mem) further here fun other differs => elsewhere (name :: other) ?_
        exact fun same => differs (List.cons_inj_right name |>.1 same)
      have present : (reviseAll f entries).any (·.1 == name) = true := by
        rw [reviseAll_eq, List.any_map, List.any_eq_true]
        exact ⟨_, mem, beq_self_eq_true name⟩
      rw [revise, put_cons present, ← revise, child?_revise, inside, Option.map_some,
        Option.getD_some, entered, revise, reviseAll_eq, reviseAll_eq, List.map_map]
      refine congrArg _ (List.map_congr_left fun entry own => ?_)
      obtain ⟨n, d⟩ := entry
      rw [Function.comp_apply]
      dsimp only
      by_cases same : n = name
      · have only : some d = some c := (child?_of_mem distinct own).symm.trans (same ▸ inside)
        rw [beq_iff_eq.2 same, if_pos rfl, Option.some.inj only, same]
      · have kept (more : List String) : g (n :: more) = f (n :: more) :=
          elsewhere _ fun e => same (List.cons.inj e).1
        rw [beq_eq_false_iff_ne.2 same, if_neg Bool.false_ne_true]
        simp only [kept]

/-! ### Places -/

/-- The directories above a place, with other bytes in their files. -/
def reviseAbove (f : List String → List UInt8 → List UInt8) :
    List (String × Entry) → List (String × Entry)
  | [] => []
  | (name, outer) :: above =>
    (name, outer.revise fun more => f ((above.map Prod.fst).reverse ++ more)) ::
      reviseAbove f above

/-- The same place in a tree with other bytes in its files. -/
def Place.revise (f : List String → List UInt8 → List UInt8) (p : Place) : Place :=
  ⟨p.entry.revise fun more => f (p.names ++ more), reviseAbove f p.above⟩

@[simp] theorem Place.names_revise (p : Place) : (p.revise f).names = p.names := by
  have same (above : List (String × Entry)) :
      (reviseAbove f above).map Prod.fst = above.map Prod.fst := by
    induction above with
    | nil => rfl
    | cons outer above ih => rw [reviseAbove, List.map_cons, ih, List.map_cons]
  rw [names, names, revise, same]

theorem Place.names_child (p : Place) (name : String) (outer c : Entry) :
    (⟨c, (name, outer) :: p.above⟩ : Place).names = p.names ++ [name] := by
  rw [Place.names, List.map_cons, List.reverse_cons]
  rfl

theorem Place.revise_child (p : Place) (name : String) (c : Entry) :
    Place.revise f ⟨c, (name, p.entry) :: p.above⟩ =
      ⟨c.revise fun more => f (p.names ++ name :: more),
        (name, (p.revise f).entry) :: (p.revise f).above⟩ := by
  rw [Place.revise, Place.names_child]
  simp only [List.append_assoc, List.singleton_append]
  rfl

/-- A part of a path leads to the same place whatever the bytes of files. -/
theorem step_revise (p : Place) (part : List Char) :
    step (p.revise f) part = (step p part).map (Place.revise f) := by
  have kind : (p.revise f).entry.isDirectory = p.entry.isDirectory := isDirectory_revise
  rw [step, step, kind]
  split
  · rfl
  · split
    · rfl
    · split
      · obtain ⟨entry, above⟩ := p
        cases above with
        | nil => rfl
        | cons outer above => rfl
      · dsimp only
        split
        · rfl
        · have inside : (p.revise f).entry.child? (String.ofList part) =
              (p.entry.child? (String.ofList part)).map
                (Entry.revise fun more => f (p.names ++ String.ofList part :: more)) :=
            child?_revise
          rw [inside]
          cases p.entry.child? (String.ofList part) with
          | none => rfl
          | some c =>
            show Except.ok _ = Except.ok (Place.revise f ⟨c, _ :: _⟩)
            rw [Place.revise_child]

theorem locate_revise (path : String) :
    (e.revise f).locate path = (e.locate path).map (Place.revise f) := by
  rw [locate, locate]
  split
  · rfl
  · have parts (ps : List (List Char)) (p : Place) :
        ps.foldlM step (p.revise f) = (ps.foldlM step p).map (Place.revise f) := by
      induction ps generalizing p with
      | nil => rfl
      | cons part ps ih =>
        rw [List.foldlM_cons, List.foldlM_cons, step_revise]
        cases step p part with
        | error fault => rfl
        | ok next => exact ih next
    exact parts _ ⟨e, []⟩

/-- The places of a tree. -/
inductive Place.In (tree : Entry) : Place → Prop
  | root : In tree ⟨tree, []⟩
  | child {p : Place} {name : String} {c : Entry} (h : In tree p)
      (found : p.entry.child? name = some c) : In tree ⟨c, (name, p.entry) :: p.above⟩

theorem Place.In.step {tree : Entry} {p q : Place} {part : List Char} (h : p.In tree)
    (led : step p part = .ok q) : q.In tree := by
  rw [Entry.step] at led
  split at led
  · cases led
  · split at led
    · cases led
      exact h
    · split at led
      · cases h with
        | root => cases led
        | child h found =>
          cases led
          exact h
      · dsimp only at led
        split at led
        · cases led
        · split at led
          · rename_i found
            cases led
            exact .child h found
          · cases led

theorem in_of_locate {tree : Entry} {path : String} {p : Place} (h : tree.locate path = .ok p) :
    p.In tree := by
  rw [locate] at h
  split at h
  · cases h
  · have parts (ps : List (List Char)) (q : Place) (inside : q.In tree)
        (led : ps.foldlM Entry.step q = .ok p) : p.In tree := by
      induction ps generalizing q with
      | nil =>
        cases led
        exact inside
      | cons part ps ih =>
        rw [List.foldlM_cons] at led
        cases next : Entry.step q part with
        | error fault =>
          rw [next] at led
          cases led
        | ok r =>
          rw [next] at led
          exact ih r (inside.step next) led
    exact parts _ _ .root h

theorem Place.In.at? {tree : Entry} {p : Place} (h : p.In tree) :
    tree.at? p.names = some p.entry := by
  induction h with
  | root => rfl
  | @child p name c h found ih =>
    rw [Place.names_child, at?_append, ih, Option.bind_some, Entry.at?, found]
    rfl

theorem Place.In.proper {tree : Entry} {p : Place} (h : p.In tree) (proper : tree.Proper) :
    p.entry.Proper := by
  induction h with
  | root => exact proper
  | child h found ih => exact ih.child? found

/-! ### Reading and writing -/

variable {path : String}

theorem read_revise_of_locate {p : Place} {bytes : List UInt8} (led : e.locate path = .ok p)
    (file : p.entry = .file bytes) : (e.revise f).read path = .ok (f p.names bytes) := by
  obtain ⟨entry, above⟩ := p
  dsimp only at file
  subst file
  rw [read, locate_revise, led]
  show Except.ok (f (_ ++ []) bytes) = _
  rw [List.append_nil]

/-- A path leads to the same bytes if those at its place are the same. -/
theorem read_revise (same : ∀ p bytes, e.locate path = .ok p → p.entry = .file bytes →
    f p.names bytes = bytes) : (e.revise f).read path = e.read path := by
  cases led : e.locate path with
  | error fault =>
    rw [read, read, locate_revise, led]
    rfl
  | ok p =>
    obtain ⟨entry, above⟩ := p
    cases entry with
    | file bytes =>
      rw [read_revise_of_locate led rfl, same _ bytes led rfl, read, led]
      rfl
    | directory entries =>
      rw [read, read, locate_revise, led]
      rfl

theorem exists_locate_of_read {bytes : List UInt8} (h : e.read path = .ok bytes) :
    ∃ p, e.locate path = .ok p ∧ p.entry = .file bytes := by
  rw [read] at h
  cases led : e.locate path with
  | error fault =>
    rw [led] at h
    cases h
  | ok p =>
    rw [led] at h
    obtain ⟨entry, above⟩ := p
    cases entry with
    | file bytes =>
      cases h
      exact ⟨_, rfl, rfl⟩
    | directory entries => cases h

/-- Writing a file changes its bytes and no others. -/
theorem Proper.write_revise (h : e.Proper) {p : Place} {old new : List UInt8}
    (led : e.locate path = .ok p) (file : p.entry = .file old) (here : g p.names old = new)
    (elsewhere : ∀ other, other ≠ p.names → g other = f other) :
    (e.revise f).write path new = .ok (e.revise g) := by
  have kind : (p.revise f).entry.isDirectory = false := by
    rw [Place.revise, isDirectory_revise, file]
    rfl
  have found : e.at? p.names = some (.file old) := file ▸ (in_of_locate led).at?
  rw [write, locate_revise, led]
  show (if (p.revise f).entry.isDirectory = true then _ else _) = _
  rw [kind, if_neg Bool.false_ne_true, Place.names_revise, h.put_revise found here elsewhere]
  rfl

/-! ### Searching -/

/-- A path into a directory by further names. -/
def pathBelow (path : List Char) (names : List String) : List Char :=
  names.foldl (fun path name => join path name.toList) path

mutual

/-- The names under which a search of a tree finds its accepted files, in the order of the search. -/
def found (accept skip : String → Bool) : Entry → List (List String)
  | .file _ => []
  | .directory entries =>
    ((byName entries).filter fun (name, e) => !e.isDirectory && accept name).map
        (fun (name, _) => [name]) ++
      (byName (foundAll accept skip entries)).flatMap Prod.snd

/-- The names of the accepted files in each directory among some entries. -/
def foundAll (accept skip : String → Bool) :
    List (String × Entry) → List (String × List (List String))
  | [] => []
  | (name, e) :: es =>
    let rest := foundAll accept skip es
    if e.isDirectory && !skip name then (name, (found accept skip e).map (name :: ·)) :: rest
    else rest

end

variable {accept skip : String → Bool}

theorem byName_map {α β : Type} (h : α → β) (xs : List (String × α)) :
    byName (xs.map fun x => (x.1, h x.2)) = (byName xs).map fun x => (x.1, h x.2) := by
  rw [byName, byName, List.map_mergeSort]
  exact fun _ _ _ _ => rfl

mutual

/-- A search lists the paths by the names that it finds. -/
theorem search_eq (path : List Char) : (e : Entry) → search accept skip path e =
    (found accept skip e).map fun names => String.ofList (pathBelow path names)
  | .file _ => by rw [search, found, List.map_nil]
  | .directory entries => by
    rw [search, found, List.map_append, List.map_map, searchAll_eq path entries, byName_map,
      List.flatMap_map, List.map_flatMap, ownFiles]
    rfl

theorem searchAll_eq (path : List Char) : (entries : List (String × Entry)) →
    searchAll accept skip path entries = (foundAll accept skip entries).map fun x =>
      (x.1, x.2.map fun names => String.ofList (pathBelow path names))
  | [] => by rw [searchAll, foundAll, List.map_nil]
  | (name, e) :: es => by
    rw [searchAll, foundAll, searchAll_eq path es, search_eq (join path name.toList) e]
    split
    · rw [List.map_cons, List.map_map]
      rfl
    · rfl

end

theorem foundAll_eq (entries : List (String × Entry)) : foundAll accept skip entries =
    (entries.filter fun x => x.2.isDirectory && !skip x.1).map fun x =>
      (x.1, (found accept skip x.2).map (x.1 :: ·)) := by
  induction entries with
  | nil => rw [foundAll, List.filter_nil, List.map_nil]
  | cons entry entries ih =>
    rw [foundAll, ih, List.filter_cons]
    split <;> rfl

/-- A search finds a file under names, at least one. -/
theorem Proper.isName_of_mem_found (h : e.Proper) (mem : names ∈ found accept skip e) :
    names ≠ [] ∧ ∀ n ∈ names, IsName n := by
  induction h generalizing names with
  | file bytes => rw [found] at mem; cases mem
  | @directory entries _ named _ ih =>
    rw [found, List.mem_append] at mem
    rcases mem with mem | mem
    · obtain ⟨⟨n, c⟩, own, rfl⟩ := List.mem_map.1 mem
      have entry := List.mem_mergeSort.1 (List.mem_filter.1 own).1
      refine ⟨List.cons_ne_nil n [], fun m hm => ?_⟩
      rw [List.mem_singleton.1 hm]
      exact named _ entry
    · obtain ⟨x, hx, mem⟩ := List.mem_flatMap.1 mem
      rw [byName, List.mem_mergeSort, foundAll_eq] at hx
      obtain ⟨entry, hentry, rfl⟩ := List.mem_map.1 hx
      obtain ⟨inner, hinner, rfl⟩ := List.mem_map.1 mem
      have own := (List.mem_filter.1 hentry).1
      refine ⟨List.cons_ne_nil _ _, fun m hm => ?_⟩
      rcases List.mem_cons.1 hm with rfl | hm
      · exact named _ own
      · exact (ih _ own hinner).2 m hm

/-- A search finds no file twice. -/
theorem Proper.nodup_found (h : e.Proper) : (found accept skip e).Nodup := by
  induction h with
  | file bytes => rw [found]; exact List.nodup_nil
  | @directory entries distinct named inner ih =>
    rw [found, List.nodup_append]
    refine ⟨?_, ?_, ?_⟩
    · have names : ((byName entries).map Prod.fst).Nodup :=
        ((List.mergeSort_perm entries _).map Prod.fst).nodup_iff.2 distinct
      rw [List.Nodup, List.pairwise_map]
      refine ((List.pairwise_map.1 names).sublist List.filter_sublist).imp fun differ same => ?_
      exact differ (List.cons.inj same).1
    · rw [byName, List.nodup_flatMap]
      refine ⟨fun x hx => ?_, ?_⟩
      · rw [List.mem_mergeSort, foundAll_eq] at hx
        obtain ⟨entry, hentry, rfl⟩ := List.mem_map.1 hx
        exact (ih entry (List.mem_filter.1 hentry).1).map (List.cons_injective)
      · have symmetric {x y : String × List (List String)} (apart : List.Disjoint x.2 y.2) :
            List.Disjoint y.2 x.2 := fun _ hy hx => apart hx hy
        rw [(List.mergeSort_perm _ _).pairwise_iff symmetric, foundAll_eq, List.pairwise_map]
        have names : (entries.filter fun x => x.2.isDirectory && !skip x.1).Pairwise
            fun x y => x.1 ≠ y.1 :=
          List.pairwise_map.1 (distinct.sublist (List.filter_sublist.map Prod.fst))
        refine names.imp fun {x y} differ names first second => ?_
        obtain ⟨_, _, rfl⟩ := List.mem_map.1 first
        obtain ⟨_, _, same⟩ := List.mem_map.1 second
        exact differ (List.cons.inj same).1.symm
    · -- A name alone is that of a file, and what is found in a directory has more names.
      intro own hown deep hdeep same
      subst same
      obtain ⟨_, _, rfl⟩ := List.mem_map.1 hown
      obtain ⟨x, hx, mem⟩ := List.mem_flatMap.1 hdeep
      rw [byName, List.mem_mergeSort, foundAll_eq] at hx
      obtain ⟨entry, hentry, rfl⟩ := List.mem_map.1 hx
      obtain ⟨rest, hrest, same⟩ := List.mem_map.1 mem
      have some := ((inner entry (List.mem_filter.1 hentry).1).isName_of_mem_found hrest).1
      exact some (List.cons.inj same).2

/-! ### Paths to what is found -/

theorem names_of_step {p q : Place} (h : IsName name) (led : step p name.toList = .ok q) :
    q.names = p.names ++ [name] := by
  have other : (name.toList.isEmpty || name.toList == ['.']) = false := by
    rw [Bool.or_eq_false_iff, List.isEmpty_eq_false_iff, beq_eq_false_iff_ne]
    exact ⟨h.nonempty, h.own⟩
  rw [step, other, beq_eq_false_iff_ne.2 h.below, if_neg Bool.false_ne_true,
    if_neg Bool.false_ne_true, String.ofList_toList] at led
  split at led
  · cases led
  · dsimp only at led
    split at led
    · cases led
    · split at led
      · cases led
        exact Place.names_child p name p.entry _
      · cases led

theorem locate_ofList (path : List Char) : e.locate (String.ofList path) =
    if path = [] ∨ path.head? = some '/' then .error .noEntry
    else (Text.splitAt '/' path).foldlM step ⟨e, []⟩ := by
  rw [locate, String.toList_ofList]
  have empty : (String.ofList path).isEmpty = true ↔ path = [] := by
    rw [String.isEmpty_iff, ← String.toList_eq_nil_iff, String.toList_ofList]
  simp only [Bool.or_eq_true, empty, beq_iff_eq]

/-- A path to an entry of a directory leads by way of the directory. -/
theorem locate_join {path : List Char} (nonempty : path ≠ []) (h : IsName name) :
    e.locate (String.ofList (join path name.toList)) =
      e.locate (String.ofList path) >>= fun p => step p name.toList := by
  have relative : name.toList.head? ≠ some '/' := fun first =>
    h.whole (List.mem_of_mem_head? first)
  have piece : Text.splitAt '/' name.toList = [name.toList] := Text.splitAt_of_not_mem h.whole
  have joined : (∃ front, path = front ++ ['/'] ∧
        join path name.toList = front ++ '/' :: name.toList) ∨
      join path name.toList = path ++ '/' :: name.toList := by
    rw [join, beq_eq_false_iff_ne.2 relative, List.isEmpty_eq_false_iff.2 nonempty,
      Bool.or_false, if_neg Bool.false_ne_true]
    by_cases slash : path.getLast? = some '/'
    · obtain ⟨front, rfl⟩ := List.getLast?_eq_some_iff.1 slash
      rw [slash, if_pos (beq_self_eq_true _)]
      exact .inl ⟨front, rfl, List.append_assoc front ['/'] name.toList⟩
    · rw [beq_eq_false_iff_ne.2 slash, if_neg Bool.false_ne_true]
      exact .inr rfl
  have stay (p : Place) : (step p [] >>= fun q => step q name.toList) = step p name.toList := by
    rw [step]
    split
    · rename_i file
      rw [step, file, if_pos rfl]
      rfl
    · rfl
  rw [locate_ofList, locate_ofList]
  rcases joined with ⟨front, rfl, joined⟩ | joined
  · have same : (front ++ '/' :: name.toList = [] ∨ (front ++ '/' :: name.toList).head? = some '/') ↔
        (front ++ ['/'] = [] ∨ (front ++ ['/']).head? = some '/') := by
      cases front <;> simp
    rw [joined]
    simp only [same]
    split
    · rfl
    · rw [Text.splitAt_append_sep, Text.splitAt_append_sep, piece, List.foldlM_append,
        List.foldlM_append, bind_assoc]
      refine congrArg _ (funext fun p => ?_)
      show (step p name.toList >>= pure) = ((step p [] >>= pure) >>= fun q => step q name.toList)
      rw [bind_pure, bind_pure, stay]
  · have same : (path ++ '/' :: name.toList = [] ∨ (path ++ '/' :: name.toList).head? = some '/') ↔
        (path = [] ∨ path.head? = some '/') := by
      cases path with
      | nil => exact absurd rfl nonempty
      | cons c path => simp
    rw [joined]
    simp only [same]
    split
    · rfl
    · rw [Text.splitAt_append_sep, piece, List.foldlM_append]
      refine congrArg _ (funext fun p => ?_)
      exact bind_pure _

/-- Where a path by further names leads, its place has these names after those of the directory. -/
theorem names_of_locate_pathBelow {path : List Char} (nonempty : path ≠ [])
    (h : ∀ n ∈ names, IsName n) {q : Place}
    (led : e.locate (String.ofList (pathBelow path names)) = .ok q) :
    ∃ p, e.locate (String.ofList path) = .ok p ∧ q.names = p.names ++ names := by
  induction names generalizing path with
  | nil => exact ⟨q, led, (List.append_nil _).symm⟩
  | cons name names ih =>
    have own := h name List.mem_cons_self
    have further : join path name.toList ≠ [] := by
      rw [join]
      split
      · exact own.nonempty
      · split
        · exact List.append_ne_nil_of_left_ne_nil nonempty _
        · exact List.append_ne_nil_of_left_ne_nil nonempty _
    obtain ⟨p, led, same⟩ := ih further (fun n hn => h n (List.mem_cons_of_mem name hn)) led
    rw [locate_join nonempty own] at led
    cases base : e.locate (String.ofList path) with
    | error fault =>
      rw [base] at led
      cases led
    | ok r =>
      rw [base] at led
      refine ⟨r, rfl, ?_⟩
      rw [same, names_of_step own led, List.append_assoc, List.singleton_append]

end Entry

end MonoTap.Files

/-!
# Keyed lists

Entries with distinct keys in the order in which the keys first came. A later value for a key takes
the place of the earlier one.
-/

set_option autoImplicit false

namespace MonoTap.Document.Keyed

variable {α : Type}

/-- Enters a value under a key. -/
def put (key : String) (value : α) : List (String × α) → List (String × α)
  | [] => [(key, value)]
  | (k, v) :: rest => if k == key then (k, value) :: rest else (k, v) :: put key value rest

/-- The value under a key. -/
def get? (key : String) (entries : List (String × α)) : Option α :=
  (entries.find? (·.1 == key)).map Prod.snd

/-- Enters several values in order. -/
def putAll (new : List (String × α)) (entries : List (String × α)) : List (String × α) :=
  new.foldl (fun entries (key, value) => put key value entries) entries

theorem get?_put_self (key : String) (value : α) (entries : List (String × α)) :
    get? key (put key value entries) = some value := by
  induction entries with
  | nil => simp [put, get?]
  | cons e rest ih =>
    obtain ⟨k, v⟩ := e
    by_cases h : k = key
    · simp [put, get?, h]
    · simp only [put, beq_iff_eq, h, ↓reduceIte]
      simpa [get?, List.find?_cons, h] using ih

/-- The keys stay in place, and a new one comes last. -/
theorem keys_put (key : String) (value : α) (entries : List (String × α)) :
    (put key value entries).map Prod.fst =
      if key ∈ entries.map Prod.fst then entries.map Prod.fst
      else entries.map Prod.fst ++ [key] := by
  induction entries with
  | nil => simp [put]
  | cons e rest ih =>
    obtain ⟨k, v⟩ := e
    by_cases h : k = key
    · simp [put, h]
    · have other : key ≠ k := fun e => h e.symm
      simp only [put, beq_iff_eq, h, ↓reduceIte, List.map_cons, ih, List.mem_cons, other, false_or]
      split <;> rfl

end MonoTap.Document.Keyed

import MonoTap.Settings.Loading

/-!
# Accepted settings

What holds of all settings that come from a record of values or are loaded: each field was accepted,
or has its default.
-/

set_option autoImplicit false

namespace MonoTap.Settings

open Callback (Bucket)
open Document (Checked PathStep Value)

/-- Whether a migration accepts some settings. -/
structure Valid (s : Settings) : Prop where
  indentSome : s.indent.isEmpty = false
  indentBlank : Text.allBlank s.indent.toList = true
  order : s.methodOrder.Perm Bucket.all
  name : Text.isIdentifier s.terminationName.toList = true

theorem valid_default : Valid {} := by
  constructor <;> decide +kernel

/-! ### Fields -/

variable {α β : Type} {path : List PathStep}

theorem exists_of_require {checked : Checked α} {accept : α → Except String β} {b : β}
    (h : require path checked accept = .ok b) : ∃ a, accept a = .ok b := by
  unfold require Except.bind at h
  split at h
  · cases h
  · rename_i a
    dsimp only at h
    split at h
    · rename_i c accepted
      cases h
      exact ⟨a, accepted⟩
    · cases h

/-- A field has what its default has, if all accepted values have it. -/
theorem of_field {entries : List (Value × Value)} {name : String} {standard a : α}
    {decode : List PathStep → Value → Checked α} {P : α → Prop} (base : P standard)
    (accepted : ∀ path v b, decode path v = .ok b → P b)
    (h : field entries name standard decode = .ok a) : P a := by
  unfold field at h
  split at h
  · exact accepted _ _ _ h
  · cases h
    exact base

theorem blank_of_acceptIndent {s t : String} (h : acceptIndent s = .ok t) :
    t.isEmpty = false ∧ Text.allBlank t.toList = true := by
  unfold acceptIndent at h
  split at h
  · rename_i blank
    cases h
    simpa using blank
  · cases h

theorem perm_of_acceptMethodOrder {names : List String} {order : List Bucket}
    (h : acceptMethodOrder names = .ok order) : order.Perm Bucket.all := by
  unfold acceptMethodOrder at h
  split at h
  · rename_i found hfound
    cases h
    exact List.isPerm_iff.1 (Option.filter_eq_some_iff.1 hfound).2
  · cases h

theorem isIdentifier_of_acceptName {s t : String} (h : acceptName s = .ok t) :
    Text.isIdentifier t.toList = true := by
  unfold acceptName at h
  split at h
  · rename_i identifier
    cases h
    exact identifier
  · cases h

/-! ### Records -/

theorem valid_of_ofEntries {entries : List (Value × Value)} {s : Settings}
    (h : ofEntries entries = .ok s) : s.Valid := by
  simp only [ofEntries, Checked.app_eq_ok_iff] at h
  obtain ⟨_, _, ⟨_, _, ⟨_, name, ⟨_, _, ⟨_, order, ⟨_, indent, level, hindent, rfl⟩, horder, rfl⟩,
    _, rfl⟩, hname, rfl⟩, _, rfl⟩, _, rfl⟩ := h
  have blank : indent.isEmpty = false ∧ Text.allBlank indent.toList = true := by
    refine of_field (P := fun t => t.isEmpty = false ∧ Text.allBlank t.toList = true) ?_
      (fun path v t accepted => ?_) hindent
    · exact ⟨valid_default.indentSome, valid_default.indentBlank⟩
    · obtain ⟨_, accepted⟩ := exists_of_require accepted
      exact blank_of_acceptIndent accepted
  have perm : order.Perm Bucket.all := by
    refine of_field (P := fun t => t.Perm Bucket.all) valid_default.order
      (fun path v t accepted => ?_) horder
    obtain ⟨_, accepted⟩ := exists_of_require accepted
    exact perm_of_acceptMethodOrder accepted
  have identifier : Text.isIdentifier name.toList = true := by
    refine of_field (P := fun t => Text.isIdentifier t.toList = true) valid_default.name
      (fun path v t accepted => ?_) hname
    obtain ⟨_, accepted⟩ := exists_of_require accepted
    exact isIdentifier_of_acceptName accepted
  unfold Except.map at level
  split at level
  · cases level
  · cases level
    exact ⟨blank.1, blank.2, perm, identifier⟩

theorem valid_of_load {tree : Files.Entry} {env : Environment} {asked : Option String}
    {s : Settings} (h : load tree env asked = .ok s) : s.Valid := by
  unfold load at h
  split at h
  · cases h
  · split at h
    · split at h
      · rename_i found
        cases h
        exact valid_of_ofEntries found
      · cases h
    · cases h
  · cases h

end MonoTap.Settings

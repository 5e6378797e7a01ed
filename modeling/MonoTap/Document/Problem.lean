/-!
# Problems

What can be wrong with a value that was read: where, and how. All problems of a value are found, in
the order of its parts.
-/

set_option autoImplicit false

namespace MonoTap.Document

/-- One step on the way to a part of a value. -/
inductive PathStep where
  | field (name : String)
  | index (position : Nat)
  deriving DecidableEq, Repr

/-- What is wrong with a part of a value. -/
inductive Cause where
  | notText
  | notList
  | notBool
  | unknownBool
  | missing
  | emptyText
  | notRecord
  | malformed
  | rejected (reason : String)
  deriving DecidableEq, Repr

namespace Cause

/-- The code of a cause. -/
def code : Cause → String
  | .notText => "string_type"
  | .notList => "list_type"
  | .notBool => "bool_type"
  | .unknownBool => "bool_parsing"
  | .missing => "missing"
  | .emptyText => "string_too_short"
  | .notRecord => "model_attributes_type"
  | .malformed => "json_invalid"
  | .rejected _ => "value_error"

/-- The wording of a cause. -/
def message : Cause → String
  | .notText => "Input should be a valid string"
  | .notList => "Input should be a valid list"
  | .notBool => "Input should be a valid boolean"
  | .unknownBool => "Input should be a valid boolean, unable to interpret input"
  | .missing => "Field required"
  | .emptyText => "String should have at least 1 character"
  | .notRecord => "Input should be a valid dictionary or object to extract fields from"
  | .malformed => "JSON decode error"
  | .rejected reason => "Value error, " ++ reason

end Cause

/-- A cause and the way to the part that it concerns. -/
structure Problem where
  path : List PathStep
  cause : Cause
  deriving DecidableEq, Repr

/-- A result, or all problems. -/
abbrev Checked (α : Type) := Except (List Problem) α

namespace Checked

/-- Applies a function to a result. The problems of both come together, in order. -/
def app {α β : Type} : Checked (α → β) → Checked α → Checked β
  | .ok f, .ok a => .ok (f a)
  | .ok _, .error ps => .error ps
  | .error ps, .ok _ => .error ps
  | .error ps, .error qs => .error (ps ++ qs)

/-- One problem. -/
def problem {α : Type} (path : List PathStep) (cause : Cause) : Checked α :=
  .error [⟨path, cause⟩]

/-- The results of checking the items of a list, or the problems of all of them. -/
def all {α β : Type} (check : Nat → α → Checked β) (position : Nat) : List α → Checked (List β)
  | [] => .ok []
  | a :: as => app ((check position a).map List.cons) (all check (position + 1) as)

theorem app_eq_ok_iff {α β : Type} {f : Checked (α → β)} {a : Checked α} {b : β} :
    app f a = .ok b ↔ ∃ g x, f = .ok g ∧ a = .ok x ∧ g x = b := by
  cases f <;> cases a <;> simp [app]

end Checked

end MonoTap.Document

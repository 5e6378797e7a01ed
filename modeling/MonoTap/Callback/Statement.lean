import MonoTap.Callback.Scope

/-!
# Statements

The statements of a callback, held in one list and referred to by position. A guard is a statement
that tests a name against `null` and refers to the statements of its branches. A position may count
from the end: -1 is the last statement.
-/

set_option autoImplicit false

namespace MonoTap.Callback

/-- How a name is tested against `null`. -/
inductive NullCheck where
  | isNull | notNull
  deriving DecidableEq, Repr

/-- The operator of a test. -/
def NullCheck.operator : NullCheck → String
  | .isNull => "=="
  | .notNull => "!="

/-- The test that an operator makes. -/
def NullCheck.ofOperator? (operator : String) : Option NullCheck :=
  if operator == "==" then some .isNull
  else if operator == "!=" then some .notNull
  else none

theorem NullCheck.ofOperator?_operator (c : NullCheck) : ofOperator? c.operator = some c := by
  cases c <;> rfl

theorem NullCheck.eq_of_ofOperator? {operator : String} {c : NullCheck}
    (h : ofOperator? operator = some c) : operator = c.operator := by
  rw [ofOperator?] at h
  split at h
  · rename_i equal
    cases h
    exact eq_of_beq equal
  · split at h
    · rename_i different
      cases h
      exact eq_of_beq different
    · cases h

/-- A test of a binding against `null`, with the positions of the statements of both branches. -/
structure Guard where
  subject : Binding
  check : NullCheck
  thenBranch : List Int
  elseBranch : List Int
  deriving DecidableEq, Repr

/-- Whether a statement is taken apart by its test, or stands as it is. -/
inductive StatementKind where
  | plain | guard
  deriving DecidableEq, Repr

/-- A statement with the comments attached to it: its text, the bindings it mentions, the bytes it
covers, its line, the width of the indentation of that line, and the test it makes. -/
structure Statement where
  kind : StatementKind
  text : String
  references : List Nat
  start : Nat
  stop : Nat
  line : Nat
  indent : Nat
  guard : Option Guard
  deriving DecidableEq, Repr

/-- Whether the statement mentions a binding. -/
def Statement.uses (s : Statement) (b : Binding) : Bool :=
  s.references.contains b.id

/-- The test by which a statement is taken apart. A plain statement may carry one, which does not
count. -/
def Statement.guard? (s : Statement) : Option Guard :=
  match s.kind with
  | .plain => none
  | .guard => s.guard

/-- All statements of a callback, those of branches included. -/
structure Arena where
  statements : List Statement
  deriving Repr

/-- A position at which there is no statement. -/
structure NoStatement where
  position : Int
  deriving DecidableEq, Repr

/-- The wording of the error. -/
def NoStatement.message (_ : NoStatement) : String :=
  "list index out of range"

namespace Arena

/-- The number of statements. -/
def size (a : Arena) : Nat := a.statements.length

/-- The statement at a position. -/
def get? (a : Arena) (position : Int) : Option Statement :=
  if 0 ≤ position then a.statements[position.toNat]?
  else if 0 ≤ a.size + position then a.statements[(a.size + position).toNat]?
  else none

/-- The statement at a position, or the error that there is none. -/
def get (a : Arena) (position : Int) : Except NoStatement Statement :=
  match a.get? position with
  | some s => .ok s
  | none => .error ⟨position⟩

theorem get?_natCast (a : Arena) (i : Nat) : a.get? i = a.statements[i]? := by
  simp [get?]

/-- A negative position means the one from the end. -/
theorem get?_negSucc (a : Arena) (i : Nat) (h : i < a.size) :
    a.get? (Int.negSucc i) = a.statements[a.size - 1 - i]? := by
  have negative : ¬ (0 : Int) ≤ Int.negSucc i := by omega
  have inside : (0 : Int) ≤ a.size + Int.negSucc i := by omega
  have same : ((a.size : Int) + Int.negSucc i).toNat = a.size - 1 - i := by omega
  simp only [get?, negative, inside, same, ↓reduceIte]

theorem get_eq_ok_iff {a : Arena} {i : Int} {s : Statement} :
    a.get i = .ok s ↔ a.get? i = some s := by
  unfold get
  split
  · rename_i t h
    simp [h]
  · rename_i h
    simp [h]

end Arena

end MonoTap.Callback

import MonoTap.Number.Shortest
import MonoTap.Text.Quoted

/-!
# Values

The values that a document holds, whatever its format, and their texts. `display` shows a text as it
is and `literal` in quotes; inside a list or a map all texts are in quotes.
-/

set_option autoImplicit false

namespace MonoTap.Document

/-- A value of a document. A map keeps its entries in order; of two with one key the later counts.
-/
inductive Value where
  | null
  | bool (b : Bool)
  | int (n : Int)
  | float (x : Number.Binary64)
  | text (s : String)
  | timestamp (s : String)
  | list (items : List Value)
  | map (entries : List (Value × Value))
  deriving Repr, Inhabited, BEq

namespace Value

mutual

/-- The text of a value, with texts in quotes. -/
def literal : Value → String
  | .null => "None"
  | .bool b => if b then "True" else "False"
  | .int n => toString n
  | .float x => x.text
  | .text s => Text.quoted s
  | .timestamp s => s
  | .list items => "[" ++ literals items ++ "]"
  | .map entries => "\x7b" ++ entryLiterals entries ++ "\x7d"

/-- The texts of several values, with commas between them. -/
def literals : List Value → String
  | [] => ""
  | [v] => literal v
  | v :: vs => literal v ++ ", " ++ literals vs

/-- The texts of the entries of a map, with commas between them. -/
def entryLiterals : List (Value × Value) → String
  | [] => ""
  | [(k, v)] => literal k ++ ": " ++ literal v
  | (k, v) :: es => literal k ++ ": " ++ literal v ++ ", " ++ entryLiterals es

end

/-- The text of a value, where a text is itself. -/
def display : Value → String
  | .text s => s
  | v => v.literal

/-- The last of some entries whose key is the text `key`. -/
def entry? (key : String) (entries : List (Value × Value)) : Option Value :=
  (entries.reverse.find? fun (k, _) => match k with
    | .text s => s == key
    | _ => false).map Prod.snd

/-- The value under a key of a map. -/
def get? (v : Value) (key : String) : Option Value :=
  match v with
  | .map entries => entry? key entries
  | _ => none

/-- A map with texts as keys. -/
def record (fields : List (String × Value)) : Value :=
  .map (fields.map fun (k, v) => (.text k, v))

/-- A list of texts. -/
def texts (ss : List String) : Value :=
  .list (ss.map .text)

/-- A text, or nothing. -/
def optionalText : Option String → Value
  | some s => .text s
  | none => .null

/-- Whether a value counts as absent: nothing, false, zero, or empty. -/
def isVacant : Value → Bool
  | .null => true
  | .bool b => !b
  | .int n => n == 0
  | .float x =>
    match x with
    | .finite .. => x.units == 0
    | _ => false
  | .text s => s.isEmpty
  | .timestamp _ => false
  | .list items => items.isEmpty
  | .map entries => entries.isEmpty

theorem get?_record_head (k : String) (v : Value) (fields : List (String × Value))
    (fresh : ∀ f ∈ fields, f.1 ≠ k) : (record ((k, v) :: fields)).get? k = some v := by
  have tail : (((fields.map fun (k, v) => (Value.text k, v)).reverse).find? fun (e, _) =>
      match e with
      | .text s => s == k
      | _ => false) = none := by
    simp only [List.find?_eq_none, List.mem_reverse, List.mem_map]
    rintro _ ⟨f, hf, rfl⟩
    simpa using fresh f hf
  simp only [record, get?, entry?, List.map_cons, List.reverse_cons, List.find?_append, tail]
  simp

end Value

end MonoTap.Document

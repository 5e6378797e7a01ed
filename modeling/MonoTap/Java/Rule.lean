import MonoTap.Java.Token

/-!
# Grammar rules

A grammar is data: a rule for each symbol. Reading a rule against a list of tokens gives the nodes
that it matches and the tokens that are left, or nothing. Choices are ordered, and the first that
matches is taken. Left recursion is written as a chain: a rule, and then a suffix as often as it
matches, where the suffix takes what has been read so far as its left part.
-/

set_option autoImplicit false

namespace MonoTap.Java

/-- A rule over symbols of type `S`. -/
inductive Rule (S : Type) where
  /-- Nothing. -/
  | empty
  /-- A bare token, put together from adjacent tokens with these texts. -/
  | token (texts : List String)
  /-- A token with this text as a node of some kind. -/
  | leaf (text : String) (k : Kind)
  /-- A word that is not reserved, as a node of some kind. -/
  | name (k : Kind)
  /-- A literal, as a node of its own kind. -/
  | literal
  /-- One rule and then the other. -/
  | seq (a b : Rule S)
  /-- The first rule, or else the second. -/
  | alt (a b : Rule S)
  /-- The rule as often as it matches. -/
  | many (r : Rule S)
  /-- Nothing, where the rule does not match. -/
  | unless (r : Rule S)
  /-- What the rule matches as the inside of a node. -/
  | node (k : Kind) (r : Rule S)
  /-- What the rule matches, each node with the given part. -/
  | field (part : Role) (r : Rule S)
  /-- The base, and then the suffix as often as it matches. -/
  | chain (base suffix : Rule S)
  /-- Inside a suffix: what the chain has read so far. -/
  | left
  /-- The rule of a symbol. -/
  | ref (s : S)

/-- Words that are never names. -/
def reservedWords : List String :=
  ["abstract", "assert", "boolean", "break", "byte", "case", "catch", "char", "class", "continue",
    "default", "do", "double", "else", "enum", "extends", "final", "finally", "float", "for", "if",
    "implements", "import", "instanceof", "int", "interface", "long", "native", "new", "package",
    "private", "protected", "public", "return", "short", "static", "strictfp", "super", "switch",
    "synchronized", "this", "throw", "throws", "transient", "try", "void", "volatile", "while",
    "true", "false", "null"]

/-- The tokens that are left, with the number of those before them. -/
structure Input where
  position : Nat
  rest : List Token

/-- The outcome of reading a rule: how far any attempt came, and on success the nodes and the tokens
that are left. -/
structure Outcome where
  reach : Nat
  result : Option (List Node × Input)

namespace Token

/-- Whether the token is a word or a mark with the given text. -/
def reads (t : Token) (text : String) : Bool :=
  (match t.kind with
    | .word | .mark | .missing => true
    | _ => false) && t.text == text

/-- Whether the token can be a name. A missing name has no text. -/
def isName (t : Token) : Bool :=
  match t.kind with
  | .word => !reservedWords.contains t.text
  | .missing => t.text.isEmpty
  | _ => false

/-- The token as a node, after the comments before it. -/
def toNodes (t : Token) (label : Label) : List Node :=
  t.extras ++ [.mk (if t.kind == .missing then .kind .missing else label) none t.start t.stop []]

end Token

namespace Node

/-- Whether the node may stand between any two tokens: a comment, or text that was skipped. -/
def isExtra (n : Node) : Bool :=
  n.isComment || n.is .error

/-- A node around the given ones. Comments before the first token stay outside. -/
def wrap (k : Kind) (nodes : List Node) : List Node :=
  let outside := nodes.takeWhile isExtra
  let inside := nodes.dropWhile isExtra
  match inside with
  | [] => outside
  | first :: _ =>
    let stop := (inside.getLast?.map stop).getD first.stop
    outside ++ [.mk (.kind k) none first.start stop inside]

/-- The nodes with the given part, comments apart. -/
def assign (part : Role) (nodes : List Node) : List Node :=
  nodes.map fun n => if n.isExtra then n else n.withRole part

end Node

namespace Rule

variable {S : Type}

/-- The first token with the given text, and after it adjacent tokens with the further texts: the
offset after the last of them and the tokens that are left. -/
def glue (stop : Nat) : List String → List Token → Option (Nat × List Token)
  | [], rest => some (stop, rest)
  | text :: texts, t :: rest =>
    if t.start == stop && t.extras.isEmpty && t.reads text then glue t.stop texts rest else none
  | _ :: _, [] => none

/-- A bare token made of the given texts at the beginning of the tokens. -/
def readToken (texts : List String) (i : Input) : Option (List Node × Input) :=
  match texts, i.rest with
  | text :: more, t :: rest =>
    if t.reads text then
      if more.isEmpty then some (t.toNodes (.token text), ⟨i.position + 1, rest⟩)
      else
        match glue t.stop more rest with
        | some (stop, rest) =>
          some (t.extras ++ [.mk (.token (String.join texts)) none t.start stop []],
            ⟨i.position + texts.length, rest⟩)
        | none => none
    else none
  | _, _ => none

/-- The first token as a node, if it passes the test. -/
def readLeaf (test : Token → Option Label) (i : Input) : Option (List Node × Input) :=
  match i.rest with
  | t :: rest => (test t).map fun label => (t.toNodes label, ⟨i.position + 1, rest⟩)
  | [] => none

/-- The kind of a literal token. -/
def literalLabel? (t : Token) : Option Label :=
  match t.kind with
  | .literal k => some (.kind k)
  | _ => none

/-- An attempt that looks at the first token only. -/
def attempt (i : Input) (result : Option (List Node × Input)) : Outcome :=
  ⟨i.position, result⟩

/-- Reads a rule. `operand` is what the chain around it has read so far, and `fuel` bounds the
nesting of rules. -/
def read (grammar : S → Rule S) : (fuel : Nat) → Rule S → (operand : List Node) → Input → Outcome
  | 0, _, _, i => ⟨i.position, none⟩
  | fuel + 1, rule, operand, i =>
    match rule with
    | .empty => ⟨i.position, some ([], i)⟩
    | .left => ⟨i.position, some (operand, i)⟩
    | .token texts => attempt i (readToken texts i)
    | .leaf text k =>
    attempt i (readLeaf (fun t => if t.reads text then some (.kind k) else none) i)
    | .name k => attempt i (readLeaf (fun t => if t.isName then some (.kind k) else none) i)
    | .literal => attempt i (readLeaf literalLabel? i)
    | .ref s => read grammar fuel (grammar s) operand i
    | .seq a b =>
      match read grammar fuel a operand i with
      | ⟨reach, none⟩ => ⟨reach, none⟩
      | ⟨reach, some (first, i)⟩ =>
        match read grammar fuel b operand i with
        | ⟨reach', none⟩ => ⟨max reach reach', none⟩
        | ⟨reach', some (second, i)⟩ => ⟨max reach reach', some (first ++ second, i)⟩
    | .alt a b =>
      match read grammar fuel a operand i with
      | ⟨reach, some result⟩ => ⟨reach, some result⟩
      | ⟨reach, none⟩ =>
        let second := read grammar fuel b operand i
        ⟨max reach second.reach, second.result⟩
    | .many r =>
      match read grammar fuel r operand i with
      | ⟨reach, none⟩ => ⟨reach, some ([], i)⟩
      | ⟨reach, some (first, next)⟩ =>
        if next.position ≤ i.position then ⟨reach, some ([], i)⟩
        else
          match read grammar fuel (.many r) operand next with
          | ⟨reach', none⟩ => ⟨max reach reach', some (first, next)⟩
          | ⟨reach', some (others, i)⟩ => ⟨max reach reach', some (first ++ others, i)⟩
    | .unless r =>
      match read grammar fuel r operand i with
      | ⟨_, some _⟩ => ⟨i.position, none⟩
      | ⟨_, none⟩ => ⟨i.position, some ([], i)⟩
    | .node k r =>
      let inside := read grammar fuel r operand i
      ⟨inside.reach, inside.result.map fun (nodes, i) => (Node.wrap k nodes, i)⟩
    | .field part r =>
      let inside := read grammar fuel r operand i
      ⟨inside.reach, inside.result.map fun (nodes, i) => (Node.assign part nodes, i)⟩
    | .chain base suffix =>
      match read grammar fuel base operand i with
      | ⟨reach, none⟩ => ⟨reach, none⟩
      | ⟨reach, some (nodes, next)⟩ =>
        match read grammar fuel suffix nodes next with
        | ⟨reach', none⟩ => ⟨max reach reach', some (nodes, next)⟩
        | ⟨reach', some (longer, after)⟩ =>
          if after.position ≤ next.position then ⟨max reach reach', some (nodes, next)⟩
          else
            let more := read grammar fuel (.chain .left suffix) longer after
            ⟨max (max reach reach') more.reach, more.result⟩

end Rule

end MonoTap.Java

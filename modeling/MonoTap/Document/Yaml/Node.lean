import MonoTap.Document.Yaml.Token

/-!
# Nodes of a YAML text

The scalars, lists and maps that the tokens of a text make up. An alias stands for the node with its
anchor; inside of that node itself it stands for an empty one.
-/

set_option autoImplicit false

namespace MonoTap.Document.Yaml

/-- A node. Without a tag, what a plain scalar is depends on its text. -/
inductive Node where
  | scalar (tag : Option String) (plain : Bool) (text : String)
  | list (tag : Option String) (items : List Node)
  | map (tag : Option String) (entries : List (Node × Node))
  deriving Inhabited, Repr

namespace Node

/-- The node that stands where nothing is written. -/
def empty : Node := .scalar none true ""

/-- What tags without a handle begin with. -/
def standardTag : String := "tag:yaml.org,2002:"

/-- The tokens that are left, the nodes with anchors and what the handles of tags stand for. -/
structure Source where
  tokens : List Token
  anchors : List (String × Node)
  handles : List (String × String)

/-- A step of reading nodes. -/
abbrev Reader (α : Type) := StateT Source (Except Fault) α

/-- The next token. -/
def next : Reader (Option Token) := return (← get).tokens.head?

/-- Leaves a token behind. -/
def advance : Reader Unit := modify fun s => { s with tokens := s.tokens.tail }

/-- Whether one of some tokens comes next. -/
def comes (some : List Token) : Reader Bool := return (← next).any some.contains

/-- The tag of a node in full. The tag that says nothing counts as none. -/
def fullTag? : Option Tag → Reader (Option String)
  | none => return none
  | some t => do
    let full ← match t.handle with
      | none => pure t.suffix
      | some handle =>
        match (← get).handles.find? (·.1 == handle) with
        | some (_, stands) => pure (stands ++ t.suffix)
        | none => throw .malformed
    return if full == "!" then none else full

/-- An anchor, if one comes. -/
def anchor? : Reader (Option String) := do
  match ← next with
  | some (.anchor name) =>
    advance
    return name
  | _ => return none

/-- A tag, if one comes. -/
def tag? : Reader (Option Tag) := do
  match ← next with
  | some (.tag t) =>
    advance
    return t
  | _ => return none

/-- The anchor and the tag of a node, in any order. -/
def properties : Reader (Option String × Option Tag) := do
  match ← anchor? with
  | some anchor => return (some anchor, ← tag?)
  | none =>
    let tag ← tag?
    return (← anchor?, tag)

/-- Gives a node its anchor. -/
def hold (anchor : Option String) (node : Node) : Reader Unit :=
  match anchor with
  | none => return
  | some name => modify fun s =>
    { s with anchors := (name, node) :: s.anchors.filter (·.1 != name) }

/-- Reads a node with an anchor. Inside of it the anchor stands for the node `inside`. -/
def anchored (anchor : Option String) (inside : Node) (read : Reader Node) : Reader Node := do
  hold anchor inside
  let node ← read
  hold anchor node
  return node

/-- The node that stands where only an anchor or a tag is written. -/
def absent (anchor tag : Option String) : Reader Node := do
  let node := Node.scalar tag tag.isNone ""
  hold anchor node
  return node

mutual

/-- Reads a node. A block may begin where `block` says so, and the items of a list without a block
of their own where `items` does. -/
def read (block items : Bool) : (fuel : Nat) → Reader Node
  | 0 => throw .malformed
  | fuel + 1 => do
    let anchors := (← get).anchors
    match ← next with
    | some (.alias name) =>
      advance
      match anchors.find? (·.1 == name) with
      | some (_, node) => return node
      | none => throw .malformed
    | _ =>
      let (anchor, written) ← properties
      if anchor.any fun name => anchors.any (·.1 == name) then throw .malformed
      let tag ← fullTag? written
      let list := anchored anchor (.list tag [])
      let map := anchored anchor (.map tag [])
      match ← next, block, items with
      | some .dash, _, true => list do return .list tag (← readItemsHere fuel)
      | some (.scalar plain text), _, _ =>
        advance
        let node := Node.scalar tag (if written.isSome then tag.isNone else plain) text
        hold anchor node
        return node
      | some .openList, _, _ =>
        advance
        list do return .list tag (← readFlowItems true fuel)
      | some .openMap, _, _ =>
        advance
        map do return .map tag (← readFlowEntries true fuel)
      | some .blockList, true, _ =>
        advance
        list do return .list tag (← readBlockItems fuel)
      | some .blockMap, true, _ =>
        advance
        map do return .map tag (← readBlockEntries fuel)
      | _, _, _ =>
        if anchor.isSome || written.isSome then absent anchor tag else throw .malformed

/-- Reads a node, or an empty one if one of the tokens `ends` comes. -/
def readUnless (ends : List Token) (block items : Bool) : (fuel : Nat) → Reader Node
  | 0 => throw .malformed
  | fuel + 1 => do
    if ← comes ends then return empty else read block items fuel

/-- Reads what comes after the sign of a value, or an empty node if there is none. -/
def readAfterSign (ends : List Token) (block : Bool) : (fuel : Nat) → Reader Node
  | 0 => throw .malformed
  | fuel + 1 => do
    if ← comes [.value] then
      advance
      readUnless ends block block fuel
    else return empty

/-- Reads the items of a list in a block. -/
def readBlockItems : (fuel : Nat) → Reader (List Node)
  | 0 => throw .malformed
  | fuel + 1 => do
    match ← next with
    | some .dash =>
      advance
      let item ← readUnless [.dash, .blockEnd] true false fuel
      return item :: (← readBlockItems fuel)
    | some .blockEnd =>
      advance
      return []
    | _ => throw .malformed

/-- Reads the items of a list that has no block of its own. -/
def readItemsHere : (fuel : Nat) → Reader (List Node)
  | 0 => throw .malformed
  | fuel + 1 => do
    match ← next with
    | some .dash =>
      advance
      let item ← readUnless [.dash, .key, .value, .blockEnd] true false fuel
      return item :: (← readItemsHere fuel)
    | _ => return []

/-- Reads the entries of a map in a block. -/
def readBlockEntries : (fuel : Nat) → Reader (List (Node × Node))
  | 0 => throw .malformed
  | fuel + 1 => do
    match ← next with
    | some .key =>
      advance
      let key ← readUnless [.key, .value, .blockEnd] true true fuel
      let value ← readAfterSign [.key, .value, .blockEnd] true fuel
      return (key, value) :: (← readBlockEntries fuel)
    | some .blockEnd =>
      advance
      return []
    | _ => throw .malformed

/-- Reads the items of a list in brackets. An item with the sign of a key or a value is a map of one
entry. -/
def readFlowItems (first : Bool) : (fuel : Nat) → Reader (List Node)
  | 0 => throw .malformed
  | fuel + 1 => do
    if ← comes [.closeList] then
      advance
      return []
    unless first do
      if ← comes [.comma] then advance else throw .malformed
    match ← next with
    | some .closeList =>
      advance
      return []
    | some .key =>
      advance
      let key ← readUnless [.value, .comma, .closeList] false false fuel
      let value ← readAfterSign [.comma, .closeList] false fuel
      return .map none [(key, value)] :: (← readFlowItems false fuel)
    | _ =>
      let item ← read false false fuel
      return item :: (← readFlowItems false fuel)

/-- Reads the entries of a map in braces. -/
def readFlowEntries (first : Bool) : (fuel : Nat) → Reader (List (Node × Node))
  | 0 => throw .malformed
  | fuel + 1 => do
    if ← comes [.closeMap] then
      advance
      return []
    unless first do
      if ← comes [.comma] then advance else throw .malformed
    match ← next with
    | some .closeMap =>
      advance
      return []
    | some .key =>
      advance
      let key ← readUnless [.value, .comma, .closeMap] false false fuel
      let value ← readAfterSign [.comma, .closeMap] false fuel
      return (key, value) :: (← readFlowEntries false fuel)
    | _ =>
      let key ← read false false fuel
      return (key, empty) :: (← readFlowEntries false fuel)

end

/-- The handles that every document has. -/
def standardHandles : List (String × String) := [("!", "!"), ("!!", standardTag)]

/-- What some directives say about handles. Neither the version nor a handle may come twice. -/
def handlesOf : (versioned : Bool) → List Directive → List (String × String) →
    Except Fault (List (String × String))
  | _, [], known => .ok (known ++ standardHandles)
  | versioned, .version major :: rest, known =>
    if versioned || major != 1 then .error .malformed else handlesOf true rest known
  | versioned, .handle name stands :: rest, known =>
    if known.any (·.1 == name) then .error .malformed
    else handlesOf versioned rest (known ++ [(name, stands)])
  | versioned, .other :: rest, known => handlesOf versioned rest known

/-- The directives at the start of some tokens. -/
def leadingDirectives : List Token → List Directive
  | .directive d :: rest => d :: leadingDirectives rest
  | _ => []

/-- Whether a token is a directive. -/
def isDirective : Token → Bool
  | .directive _ => true
  | _ => false

/-- Reads a document without a start of its own, or one with directives and a start. -/
def readDocument (fuel : Nat) : Reader Node := do
  let tokens := (← get).tokens
  match tokens.dropWhile isDirective with
  | .documentStart :: rest =>
    let handles ← handlesOf false (leadingDirectives tokens) []
    set (⟨rest, [], handles⟩ : Source)
    let ends : Token → Bool := fun t =>
      isDirective t || t == .documentStart || t == .documentEnd
    if rest.head?.all ends then return empty else read true false fuel
  | _ =>
    if tokens.head?.any isDirective then throw .malformed else read true false fuel

/-- The node of the only document that some tokens make up. There is none without tokens. -/
def ofTokens (tokens : List Token) : Except Fault Node :=
  if tokens.isEmpty then .ok empty
  else do
    let (node, source) ← (readDocument (4 * tokens.length + 4)).run ⟨tokens, [], standardHandles⟩
    if (source.tokens.dropWhile (· == .documentEnd)).isEmpty then return node
    else throw .malformed

end Node

end MonoTap.Document.Yaml

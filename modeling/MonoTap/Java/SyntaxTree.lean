import MonoTap.Java.Grammar

/-!
# Syntax trees of texts

Every text has a syntax tree. A text that is no Java is repaired token by token: where reading
stops, one token is put in or the offending one is skipped, as long as the reading then goes on for
some tokens or reaches the end. The tree of a repaired text shows each repair as a node of kind
`missing` or `error`. A text that resists is an error as a whole, which still holds the declarations
read before the first fault.
-/

set_option autoImplicit false

namespace MonoTap.Java

/-- A bound on the nesting of rules while reading this many tokens. Between two tokens at most a few
hundred rules are entered, since no rule refers to itself before it has read a token. -/
def nestingBound (tokens : Nat) : Nat :=
  500 * (tokens + 2)

/-- Reads a compilation unit. -/
@[irreducible]
def readProgram (tokens : List Token) : Outcome :=
  Grammar.program.read Grammar.ruleOf (nestingBound tokens.length) [] ⟨0, tokens⟩

/-- The nodes of a compilation unit, if the tokens make up one. -/
def Outcome.complete? (o : Outcome) : Option (List Node) :=
  match o.result with
  | some (nodes, ⟨_, []⟩) => some nodes
  | _ => none

/-- The root of a tree with the given label over the given nodes. -/
def rootOver (k : Kind) (nodes : List Node) : Node :=
  let start := (nodes.head?.map Node.start).getD 0
  let stop := (nodes.getLast?.map Node.stop).getD start
  .mk (.kind k) none start stop nodes

/-- The texts of the tokens that may be put in; the last one is a name. -/
def insertable : List String := [";", ")", "]", "\x7d", ""]

/-- The tokens with one put in at a position. It stands right after the token before it, and covers
nothing. -/
def insertToken (text : String) (position : Nat) (tokens : List Token) : List Token :=
  let offset := ((tokens.take position).getLast?.map Token.stop).getD 0
  tokens.take position ++ [⟨.missing, text, offset, offset, []⟩] ++ tokens.drop position

/-- The tokens and trailing comments with the token at a position skipped. It becomes an error among
the comments that follow. -/
def skipToken (position : Nat) (l : TokenList) : Option TokenList :=
  match l.tokens.drop position with
  | [] => none
  | t :: rest =>
    let skipped := t.extras ++ [.mk (.kind .error) none t.start t.stop []]
    match rest with
    | [] => some ⟨l.tokens.take position, skipped ++ l.trailing⟩
    | next :: rest =>
      some ⟨l.tokens.take position ++ { next with extras := skipped ++ next.extras } :: rest,
        l.trailing⟩

/-- The number of tokens that must be readable after a repair for the repair to stand. -/
def recoverySpan : Nat := 4

/-- Whether reading goes on well beyond the position of a repair. -/
def recovers (position : Nat) (l : TokenList) : Bool :=
  let outcome := readProgram l.tokens
  outcome.complete?.isSome || position + recoverySpan ≤ outcome.reach

/-- The repaired tokens, where reading stops at `position`. -/
def repair? (position : Nat) (l : TokenList) : Option TokenList :=
  let inserted := insertable.map fun text => { l with tokens := insertToken text position l.tokens }
  (inserted ++ (skipToken position l).toList).find? (recovers position)

/-- The tree over the tokens, with at most `repairs` repairs. -/
def treeOf (repairs : Nat) (l : TokenList) : Node :=
  let outcome := readProgram l.tokens
  match outcome.complete? with
  | some nodes => rootOver .program (nodes ++ l.trailing)
  | none =>
    match repairs, repair? outcome.reach l with
    | repairs + 1, some repaired => treeOf repairs repaired
    | _, _ => broken l outcome
where
  /-- The tree of a text that resists repair. -/
  broken (l : TokenList) (outcome : Outcome) : Node :=
    let first := (l.tokens.head?.map fun t => (t.extras.head?.map Node.start).getD t.start).getD 0
    let nodes := (outcome.result.map Prod.fst).getD []
    let stop := ((l.tokens.getLast?.map Token.stop).getD first)
    .mk (.kind .error) none first stop nodes

/-- The syntax tree of a text. -/
def parse (text : List Char) : Node :=
  let l := TokenList.ofChars text
  treeOf l.tokens.length l

end MonoTap.Java

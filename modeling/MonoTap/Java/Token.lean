import MonoTap.Java.Node
import MonoTap.Text.Identifier

/-!
# Tokens

The tokens of a Java text. A token records its text, the bytes it covers and the comments that
stand before it. Tokens are the longest that fit, with one exception: `>` is always a token of its
own, since two of them may close two lists of type arguments. Text that begins no token becomes a
stray token, which no construct of the language accepts.
-/

set_option autoImplicit false

namespace MonoTap.Java

/-- What a token is. -/
inductive TokenKind where
  /-- A name or a keyword. -/
  | word
  /-- A literal of some kind. -/
  | literal (k : Kind)
  /-- An operator or a punctuation mark. -/
  | mark
  /-- Text that begins no token. -/
  | stray
  /-- A token that the text lacks, put in so that the rest can be read. -/
  | missing
  deriving DecidableEq, Repr

/-- A token with the bytes it covers and the comments before it. -/
structure Token where
  kind : TokenKind
  text : String
  start : Nat
  stop : Nat
  extras : List Node

/-- What stands at some place of the text, apart from blanks. -/
inductive Lexeme where
  | comment (k : Kind)
  | token (k : TokenKind)
  deriving DecidableEq, Repr

/-- Whether a character separates tokens. -/
def isSpace (c : Char) : Bool :=
  let n := c.toNat
  (9 ≤ n && n ≤ 13) || n == 32 || n == 0x85 || n == 0xA0 || n == 0x1680 ||
    (0x2000 ≤ n && n ≤ 0x200A) || n == 0x2028 || n == 0x2029 || n == 0x202F || n == 0x205F ||
    n == 0x3000

/-- Whether a character may begin a word. -/
def isWordStart (c : Char) : Bool :=
  Text.isIdentifierStart c || c == '$'

/-- Whether a character may continue a word. -/
def isWordContinue (c : Char) : Bool :=
  Text.isIdentifierContinue c || c == '$' || c == '¢'

/-- Whether a character is a digit of a number in base sixteen. -/
def isHexDigit (c : Char) : Bool :=
  c.isDigit || ('a' ≤ c && c ≤ 'f') || ('A' ≤ c && c ≤ 'F')

/-- The number of characters of the longest beginning of `cs` that `p` accepts. -/
def runLength (p : Char → Bool) (cs : List Char) : Nat :=
  (cs.takeWhile p).length

/-- The number of characters up to the end of a block comment, counted after its opening. -/
def blockCommentLength? : List Char → Option Nat
  | [] => none
  | '*' :: '/' :: _ => some 2
  | c :: cs => if c.toNat == 0 then none else (blockCommentLength? cs).map (· + 1)

/-- The number of characters that an escape takes after its backslash; `none` if it is malformed. -/
def escapeLength? : List Char → Option Nat
  | [] => none
  | 'x' :: cs => if 2 ≤ runLength isHexDigit (cs.take 2) then some 3 else none
  | 'u' :: '{' :: cs =>
    let n := runLength isHexDigit cs
    match cs.drop n with
    | '}' :: _ => if n == 0 then none else some (n + 3)
    | _ => none
  | 'u' :: cs => if 4 ≤ runLength isHexDigit (cs.take 4) then some 5 else none
  | c :: _ => if c.toNat == 0 then none else some 1

/-- The number of characters of a string after its opening quote, up to and with the closing one.
A string may hold line breaks. -/
def stringLength? (cs : List Char) : Option Nat :=
  match cs with
  | [] => none
  | '"' :: _ => some 1
  | '\\' :: rest => do
    let n ← escapeLength? rest
    return (← stringLength? (rest.drop n)) + n + 1
  | c :: rest => if c.toNat == 0 then none else do return (← stringLength? rest) + 1
termination_by cs.length
decreasing_by all_goals simp_wf; try omega

/-- The number of characters of a text block after its opening quotes, up to and with the closing
ones. -/
def textBlockLength? (cs : List Char) : Option Nat :=
  match cs with
  | [] => none
  | '"' :: '"' :: '"' :: _ => some 3
  | '\\' :: rest => do
    let n ← escapeLength? rest
    return (← textBlockLength? (rest.drop n)) + n + 1
  | c :: rest => if c.toNat == 0 then none else do return (← textBlockLength? rest) + 1
termination_by cs.length
decreasing_by all_goals simp_wf; try omega

/-- The number of characters of a character literal after its opening quote, up to and with the
closing one. `some 0` never arises: the literal holds at least one character. -/
def characterLength? : List Char → Option Nat
  | '\\' :: c :: rest => if c.toNat == 0 then none else (tail rest).map (· + 2)
  | c :: rest =>
    if c == '\'' || c == '\n' || c == '\\' || c.toNat == 0 then none
    else (tail rest).map (· + 1)
  | [] => none
where
  /-- Further characters of the literal and its closing quote. -/
  tail : List Char → Option Nat
    | '\'' :: _ => some 1
    | '\\' :: c :: rest => if c.toNat == 0 then none else (tail rest).map (· + 2)
    | c :: rest =>
      if c == '\n' || c == '\\' || c.toNat == 0 then none else (tail rest).map (· + 1)
    | [] => none

/-- Whether a character stands in a decimal number. -/
def isDecimalPart (c : Char) : Bool :=
  c.isDigit || c == '_'

/-- The number of characters of an exponent, 0 if there is none. -/
def exponentLength (marks : List Char) : List Char → Nat
  | e :: sign :: cs =>
    if marks.contains e then
      let signed := sign == '+' || sign == '-'
      let digits := runLength isDecimalPart (if signed then cs else sign :: cs)
      if digits == 0 then 0 else 1 + (if signed then 1 else 0) + digits
    else 0
  | _ => 0

/-- The length of an optional suffix letter. -/
def suffixLength (letters : List Char) : List Char → Nat
  | c :: _ => if letters.contains c then 1 else 0
  | [] => 0

/-- A number that begins with `0x`: its kind and its length after the two characters. -/
def scanHex (cs : List Char) : TokenKind × Nat :=
  let whole := runLength (fun c => isHexDigit c || c == '_') cs
  let dotted := (cs.drop whole).head? == some '.'
  let fraction :=
    if dotted then 1 + runLength (fun c => isHexDigit c || c == '_') (cs.drop (whole + 1)) else 0
  let exponent := exponentLength ['p', 'P'] (cs.drop (whole + fraction))
  if exponent == 0 then
    if whole == 0 then (.stray, 0)
    else (.literal .hexIntegerLiteral, whole + suffixLength ['l', 'L'] (cs.drop whole))
  else
    let n := whole + fraction + exponent
    (.literal .hexFloatingPointLiteral, n + suffixLength ['f', 'F', 'd', 'D'] (cs.drop n))

/-- A number in base two, eight or ten, or a decimal fraction: its kind and its length. -/
def scanDecimal (cs : List Char) : TokenKind × Nat :=
  let whole := runLength isDecimalPart cs
  let dotted := (cs.drop whole).head? == some '.'
  let fraction := if dotted then 1 + runLength isDecimalPart (cs.drop (whole + 1)) else 0
  let exponent := exponentLength ['e', 'E'] (cs.drop (whole + fraction))
  let n := whole + fraction + exponent
  let suffix := suffixLength ['f', 'F', 'd', 'D'] (cs.drop n)
  if fraction + exponent + suffix != 0 then (.literal .decimalFloatingPointLiteral, n + suffix)
  else
    let long := suffixLength ['l', 'L'] (cs.drop whole)
    if whole == 1 || cs.head? != some '0' then (.literal .decimalIntegerLiteral, whole + long)
    else if (cs.take whole).all (fun c => c != '8' && c != '9') then
      (.literal .octalIntegerLiteral, whole + long)
    else (.stray, whole)

/-- The marks of more than one character, longest first. A mark that begins with `>` is put
together from its characters where the language wants it. -/
def longMarks : List String :=
  ["<<=", "...", "->", "::", "++", "--", "&&", "||", "==", "!=", "<=", "+=", "-=", "*=", "/=", "&=",
    "|=", "^=", "%=", "<<"]

/-- The marks of one character. -/
def shortMarks : List Char :=
  ['(', ')', '{', '}', '[', ']', ';', ',', '.', '@', '=', '<', '>', '!', '~', '?', ':', '+', '-',
    '*', '/', '&', '|', '^', '%']

/-- The mark at the beginning of the text, or a stray character. -/
def scanMark (c : Char) (cs : List Char) : Lexeme × Nat :=
  match longMarks.find? fun mark => mark.toList.isPrefixOf (c :: cs) with
  | some mark => (.token .mark, mark.length - 1)
  | none => (.token (if shortMarks.contains c then .mark else .stray), 0)

/-- What stands at the beginning of the text `c :: cs`, where `c` is no blank, and how many
characters of `cs` it takes. An unclosed comment, string or text block takes all of them. -/
def scan (c : Char) (cs : List Char) : Lexeme × Nat :=
  match c, cs with
  | '/', '/' :: rest =>
    (.comment .lineComment, 1 + runLength (fun x => x != '\n' && x.toNat != 0) rest)
  | '/', '*' :: rest =>
    match blockCommentLength? rest with
    | some n => (.comment .blockComment, 1 + n)
    | none => (.token .stray, cs.length)
  | '"', '"' :: '"' :: rest =>
    match textBlockLength? rest with
    | some n => (.token (.literal .stringLiteral), 2 + n)
    | none => (.token .stray, cs.length)
  | '"', _ =>
    match stringLength? cs with
    | some n => (.token (.literal .stringLiteral), n)
    | none => (.token .stray, cs.length)
  | '\'', _ =>
    match characterLength? cs with
    | some n => (.token (.literal .characterLiteral), n)
    | none => (.token .stray, 0)
  | '0', x :: rest =>
    if x == 'x' || x == 'X' then
      let (kind, n) := scanHex rest
      (.token kind, 1 + n)
    else if x == 'b' || x == 'B' then
      let n := runLength (fun d => d == '0' || d == '1' || d == '_') rest
      (.token (.literal .binaryIntegerLiteral), 1 + n + suffixLength ['l', 'L'] (rest.drop n))
    else number
  | '.', x :: _ => if x.isDigit then number else scanMark c cs
  | _, _ =>
    if isWordStart c then (.token .word, runLength isWordContinue cs)
    else if c.isDigit then number
    else scanMark c cs
where
  /-- A number in base two, eight or ten, or a decimal fraction. -/
  number : Lexeme × Nat :=
    let (kind, n) := scanDecimal (c :: cs)
    (.token kind, n - 1)

/-- The number of bytes of a list of characters. -/
def byteLength (cs : List Char) : Nat :=
  cs.foldl (fun n c => n + c.utf8Size) 0

/-- The tokens of a text and the comments after the last of them. -/
structure TokenList where
  tokens : List Token
  trailing : List Node

/-- Reads tokens from `cs`, whose first byte has the given offset. The comments since the last token
and the tokens so far are passed in reverse order. -/
def readTokens (offset : Nat) (comments : List Node) (tokens : List Token) :
    List Char → TokenList
  | [] => ⟨tokens.reverse, comments.reverse⟩
  | c :: cs =>
    if isSpace c then readTokens (offset + c.utf8Size) comments tokens cs
    else
      let (lexeme, n) := scan c cs
      let taken := c :: cs.take n
      let stop := offset + byteLength taken
      match lexeme with
      | .comment k =>
        readTokens stop (.mk (.kind k) none offset stop [] :: comments) tokens (cs.drop n)
      | .token k =>
        readTokens stop [] (⟨k, String.ofList taken, offset, stop, comments.reverse⟩ :: tokens)
          (cs.drop n)
termination_by cs => cs.length
decreasing_by all_goals simp_wf; try omega

/-- The tokens of a text. A byte order mark at the beginning is skipped. -/
def TokenList.ofChars : List Char → TokenList
  | [] => ⟨[], []⟩
  | c :: cs =>
    if c.toNat == 0xFEFF then readTokens c.utf8Size [] [] cs else readTokens 0 [] [] (c :: cs)

end MonoTap.Java

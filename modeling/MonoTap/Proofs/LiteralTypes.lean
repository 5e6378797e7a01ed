import MonoTap.Proofs.Lexemes
import MonoTap.Proofs.Spelling

/-!
# Types of literals

A call of a factory takes the type of its values from the literal that is its argument. The scan tells
the form of a literal by its characters, but not the type that its suffix gives it: what the resolver
finds is the type that the language gives the literal, unless the suffix makes it a long or a float.
Octal and binary integers and fractions in base sixteen have no type there.
-/

set_option autoImplicit false

namespace MonoTap.Java

/-! ### The literals of the language -/

/-- The forms of literals. -/
inductive LiteralForm where
  | decimalInteger | hexInteger | octalInteger | binaryInteger
  | decimalFraction | hexFraction | character | string | truth
  deriving DecidableEq, Repr

def isOctalDigit (c : Char) : Bool :=
  '0' ≤ c && c ≤ '7'

def isBinaryDigit (c : Char) : Bool :=
  c == '0' || c == '1'

/-- Whether some characters are digits, perhaps with underscores between them. -/
def areDigits (p : Char → Bool) (cs : List Char) : Bool :=
  cs.all (fun c => p c || c == '_') && cs.head?.any p && cs.getLast?.any p

/-- Whether some characters are an integer of some form without its suffix. -/
def isNumeral : LiteralForm → List Char → Bool
  | .decimalInteger, cs => cs == ['0'] || areDigits Char.isDigit cs && cs.head? != some '0'
  | .hexInteger, '0' :: x :: cs => (x == 'x' || x == 'X') && areDigits isHexDigit cs
  | .octalInteger, '0' :: c :: cs => areDigits isOctalDigit ('0' :: c :: cs)
  | .binaryInteger, '0' :: b :: cs => (b == 'b' || b == 'B') && areDigits isBinaryDigit cs
  | _, _ => false

/-- Whether some characters are an exponent after one of some marks. -/
def isExponent (marks : List Char) : List Char → Bool
  | e :: sign :: cs => marks.contains e &&
    (areDigits Char.isDigit (sign :: cs) || (sign == '+' || sign == '-') && areDigits Char.isDigit cs)
  | _ => false

/-- The digits of a fraction, with or without a point. -/
inductive Significand (p : Char → Bool) : (dotted : Bool) → List Char → Prop
  | whole {cs : List Char} (digits : areDigits p cs = true) : Significand p false cs
  | dotted {whole fraction : List Char} (before : whole = [] ∨ areDigits p whole = true)
    (after : fraction = [] ∨ areDigits p fraction = true) (some : whole ≠ [] ∨ fraction ≠ []) :
    Significand p true (whole ++ '.' :: fraction)

/-- The suffixes of fractions with the types that they give them. -/
inductive FractionSuffix : List Char → String → Prop
  | none : FractionSuffix [] "Double"
  | double {c : Char} (letter : c = 'd' ∨ c = 'D') : FractionSuffix [c] "Double"
  | float {c : Char} (letter : c = 'f' ∨ c = 'F') : FractionSuffix [c] "Float"

/-- Whether some characters after a backslash make an escape. -/
def isEscape : List Char → Bool
  | [c] => ['b', 's', 't', 'n', 'f', 'r', '"', '\'', '\\'].contains c || isOctalDigit c
  | [a, b] => isOctalDigit a && isOctalDigit b
  | [a, b, c] => '0' ≤ a && a ≤ '3' && isOctalDigit b && isOctalDigit c
  | 'u' :: cs => (cs.dropWhile (· == 'u')).length == 4 && (cs.dropWhile (· == 'u')).all isHexDigit
  | _ => false

def isLineBreak (c : Char) : Bool :=
  c == '\n' || c == '\r'

/-- Whether some characters are those of a character literal. -/
def isCharacter : List Char → Bool
  | [c] => !(c == '\'' || c == '\\' || isLineBreak c) && decide (c.toNat < 0x10000)
  | '\\' :: cs => isEscape cs
  | _ => false

/-- Characters of some sort and escapes, up to the first mark that closes them. A line break may be
escaped where one may stand. -/
inductive Closed (mark : List Char) (sort : Char → Bool) : List Char → Prop
  | close : Closed mark sort mark
  | plain {c : Char} {cs : List Char} (further : mark.isPrefixOf (c :: cs) = false) (known : sort c = true)
    (other : c ≠ '\\') (rest : Closed mark sort cs) : Closed mark sort (c :: cs)
  | escape {escaped cs : List Char} (known : isEscape escaped = true) (rest : Closed mark sort cs) :
    Closed mark sort ('\\' :: (escaped ++ cs))
  | continued {c : Char} {cs : List Char} (feed : isLineBreak c = true) (known : sort c = true)
    (rest : Closed mark sort cs) : Closed mark sort ('\\' :: c :: cs)

/-- The literals of the language other than `null`, each with its form and the boxed type it has. -/
inductive Literal : LiteralForm → List Char → String → Prop
  | integer {form : LiteralForm} {numeral : List Char} (digits : isNumeral form numeral = true) :
    Literal form numeral "Integer"
  | long {form : LiteralForm} {numeral : List Char} {c : Char} (digits : isNumeral form numeral = true)
    (suffix : c = 'l' ∨ c = 'L') : Literal form (numeral ++ [c]) "Long"
  | decimalFraction {dotted : Bool} {significand exponent suffix : List Char} {type : String}
    (digits : Significand Char.isDigit dotted significand)
    (power : exponent = [] ∨ isExponent ['e', 'E'] exponent = true)
    (ending : FractionSuffix suffix type) (proper : dotted = true ∨ exponent ≠ [] ∨ suffix ≠ []) :
    Literal .decimalFraction (significand ++ (exponent ++ suffix)) type
  | hexFraction {x : Char} {dotted : Bool} {significand exponent suffix : List Char} {type : String}
    (mark : x = 'x' ∨ x = 'X') (digits : Significand isHexDigit dotted significand)
    (power : isExponent ['p', 'P'] exponent = true) (ending : FractionSuffix suffix type) :
    Literal .hexFraction ('0' :: x :: (significand ++ (exponent ++ suffix))) type
  | character {inside : List Char} (sort : isCharacter inside = true) :
    Literal .character ('\'' :: (inside ++ ['\''])) "Character"
  | string {cs : List Char} (closed : Closed ['"'] (fun c => !isLineBreak c) cs) :
    Literal .string ('"' :: cs) "String"
  | textBlock {white cs : List Char} {c : Char} (blank : ∀ d ∈ white, d = ' ' ∨ d = '\t' ∨ d = '\x0c')
    (feed : isLineBreak c = true) (closed : Closed ['"', '"', '"'] (fun _ => true) cs) :
    Literal .string ('"' :: '"' :: '"' :: (white ++ c :: cs)) "String"
  | truth {word : String} (known : word = "true" ∨ word = "false") : Literal .truth word.toList "Boolean"

/-! ### The kinds of literals -/

/-- Whether further digits follow a zero. -/
def isPadded : List Char → Bool
  | '0' :: c :: _ => isDecimalPart c
  | _ => false

/-- The kind of a number in base eight or ten, or of a decimal fraction, by its characters. -/
def decimalKind (w : List Char) : Kind :=
  if w.any (['.', 'e', 'E', 'f', 'F', 'd', 'D'].contains ·) then .decimalFloatingPointLiteral
  else if isPadded w then .octalIntegerLiteral
  else .decimalIntegerLiteral

/-- The kind of a number by its characters. -/
def numberKind (w : List Char) : Kind :=
  match w with
  | '0' :: x :: cs =>
    if x == 'x' || x == 'X' then
      if cs.any (['p', 'P'].contains ·) then .hexFloatingPointLiteral else .hexIntegerLiteral
    else if x == 'b' || x == 'B' then .binaryIntegerLiteral
    else decimalKind w
  | _ => decimalKind w

/-- The kind of a literal by its characters. -/
def literalKind (w : List Char) : Kind :=
  match w with
  | '"' :: _ => .stringLiteral
  | '\'' :: _ => .characterLiteral
  | 't' :: _ => .trueLiteral
  | 'f' :: _ => .falseLiteral
  | _ => numberKind w

/-- The kind that literals of some form have. -/
def LiteralForm.kind? : LiteralForm → Option Kind
  | .decimalInteger => some .decimalIntegerLiteral
  | .hexInteger => some .hexIntegerLiteral
  | .octalInteger => some .octalIntegerLiteral
  | .binaryInteger => some .binaryIntegerLiteral
  | .decimalFraction => some .decimalFloatingPointLiteral
  | .hexFraction => some .hexFloatingPointLiteral
  | .character => some .characterLiteral
  | .string => some .stringLiteral
  | .truth => none

/-! ### What the scan takes for numbers -/

variable {p : Char → Bool} {marks letters cs w : List Char} {c : Char} {k : Kind} {n : Nat}

theorem not_contains (other : marks.any p = false) (sort : p c = true) : marks.contains c = false := by
  rw [← Bool.not_eq_true]
  intro mark
  exact List.any_eq_false.1 other c (List.contains_iff_mem.1 mark) sort

/-- Of characters of one sort, none is among some of another sort. -/
theorem any_contains_eq_false (other : marks.any p = false) (all : ∀ c ∈ cs, p c = true) :
    cs.any (marks.contains ·) = false := by
  rw [List.any_eq_false]
  intro c hc
  rw [not_contains other (all c hc)]
  exact Bool.false_ne_true

theorem take_runLength (p : Char → Bool) (cs : List Char) : cs.take (runLength p cs) = cs.takeWhile p :=
  (List.prefix_iff_eq_take.1 (List.takeWhile_prefix p)).symm

theorem mem_take_runLength (hc : c ∈ cs.take (runLength p cs)) : p c = true := by
  rw [take_runLength] at hc
  exact List.all_eq_true.1 List.all_takeWhile c hc

theorem mem_take_suffixLength (hc : c ∈ cs.take (suffixLength letters cs)) : c ∈ letters := by
  cases cs with
  | nil => simp at hc
  | cons d cs =>
    rw [suffixLength] at hc
    split at hc
    · rename_i known
      rw [List.take_succ_cons, List.take_zero, List.mem_singleton] at hc
      exact hc ▸ List.contains_iff_mem.1 known
    · cases hc

theorem exists_of_suffixLength (h : suffixLength letters cs ≠ 0) :
    ∃ e rest, cs = e :: rest ∧ letters.contains e = true := by
  cases cs with
  | nil => exact (h rfl).elim
  | cons e rest =>
    rw [suffixLength] at h
    split at h
    · rename_i known
      exact ⟨e, rest, rfl, known⟩
    · exact (h rfl).elim

theorem exists_of_exponentLength (h : exponentLength marks cs ≠ 0) :
    ∃ e rest, cs = e :: rest ∧ marks.contains e = true := by
  match cs with
  | [] => exact (h rfl).elim
  | [_] => exact (h rfl).elim
  | e :: sign :: rest =>
    rw [exponentLength] at h
    split at h
    · rename_i known
      exact ⟨e, _, rfl, known⟩
    · exact (h rfl).elim

theorem mem_marks {more : List Char} {e : Char} (known : marks.contains e = true) (sub : marks ⊆ more) :
    more.contains e = true :=
  List.contains_iff_mem.2 (sub (List.contains_iff_mem.1 known))

/-- What is taken together with a mark after it holds the mark. -/
theorem any_take_of_drop {e : Char} {rest : List Char} {m : Nat} (split : cs.drop m = e :: rest)
    (known : marks.contains e = true) (further : m < n) : (cs.take n).any (marks.contains ·) = true := by
  rw [List.any_eq_true]
  refine ⟨e, ?_, known⟩
  have here : cs[m]? = some e := by
    rw [← Nat.add_zero m, ← List.getElem?_drop, split]
    rfl
  exact List.mem_of_getElem? (i := m) (by rw [List.getElem?_take, if_pos further, here])

/-- A number in base sixteen is a fraction if it has an exponent. -/
theorem kind_of_scanHex (h : scanHex cs = (.literal k, n)) :
    k = if (cs.take n).any (['p', 'P'].contains ·) then .hexFloatingPointLiteral
      else .hexIntegerLiteral := by
  rw [scanHex] at h
  dsimp only at h
  generalize hwhole : runLength (fun c => isHexDigit c || c == '_') cs = whole at h
  generalize (if ((cs.drop whole).head? == some '.') = true then
    1 + runLength (fun c => isHexDigit c || c == '_') (cs.drop (whole + 1)) else 0) = fraction at h
  generalize hpower : exponentLength ['p', 'P'] (cs.drop (whole + fraction)) = power at h
  split at h
  · split at h
    · cases h
    · cases h
      have digits : ∀ c ∈ cs.take whole, (isHexDigit c || c == '_') = true := by
        intro c hc
        rw [← hwhole] at hc
        exact mem_take_runLength hc
      have suffix : ∀ c ∈ (cs.drop whole).take (suffixLength ['l', 'L'] (cs.drop whole)),
          (c == 'l' || c == 'L') = true := by
        intro c hc
        simpa using mem_take_suffixLength hc
      rw [List.take_add, List.any_append, any_contains_eq_false rfl digits,
        any_contains_eq_false rfl suffix]
      rfl
  · rename_i some
    cases h
    have further : power ≠ 0 := fun none => some (beq_iff_eq.2 none)
    obtain ⟨e, rest, split, known⟩ := exists_of_exponentLength (hpower ▸ further)
    rw [any_take_of_drop split known (by omega)]
    rfl

theorem exists_of_isPadded (h : isPadded w = true) :
    ∃ c rest, w = '0' :: c :: rest ∧ isDecimalPart c = true := by
  unfold isPadded at h
  split at h
  · exact ⟨_, _, rfl, h⟩
  · cases h

/-- A number in another base is a fraction if it has a point, an exponent or a suffix of fractions, and
else it is octal if it begins with zero and has more digits. -/
theorem kind_of_scanDecimal (h : scanDecimal cs = (.literal k, n)) : k = decimalKind (cs.take n) := by
  rw [scanDecimal] at h
  dsimp only at h
  generalize hwhole : runLength isDecimalPart cs = whole at h
  generalize hfraction : (if ((cs.drop whole).head? == some '.') = true then
    1 + runLength isDecimalPart (cs.drop (whole + 1)) else 0) = fraction at h
  generalize hpower : exponentLength ['e', 'E'] (cs.drop (whole + fraction)) = power at h
  generalize hsuffix : suffixLength ['f', 'F', 'd', 'D'] (cs.drop (whole + fraction + power)) = suffix at h
  split at h
  · rename_i fractional
    cases h
    have more : fraction ≠ 0 ∨ power ≠ 0 ∨ suffix ≠ 0 := by
      rw [bne_iff_ne] at fractional
      omega
    have marked : (cs.take (whole + fraction + power + suffix)).any
        (['.', 'e', 'E', 'f', 'F', 'd', 'D'].contains ·) = true := by
      by_cases point : fraction = 0
      · by_cases exponent : power = 0
        · obtain ⟨e, rest, split, known⟩ := exists_of_suffixLength (hsuffix ▸ (by omega : suffix ≠ 0))
          exact any_take_of_drop split (mem_marks known (by decide)) (by omega)
        · obtain ⟨e, rest, split, known⟩ := exists_of_exponentLength (hpower ▸ exponent)
          exact any_take_of_drop split (mem_marks known (by decide)) (by omega)
      · have dotted : (cs.drop whole).head? = some '.' := by
          cases head : (cs.drop whole).head? == some '.' with
          | true => exact beq_iff_eq.1 head
          | false =>
            rw [head, if_neg Bool.false_ne_true] at hfraction
            exact (point hfraction.symm).elim
        obtain ⟨rest, split⟩ := List.head?_eq_some_iff.1 dotted
        exact any_take_of_drop split (by decide) (by omega)
    rw [decimalKind, if_pos marked]
  · rename_i none
    have long : (cs.take (whole + suffixLength ['l', 'L'] (cs.drop whole))).any
        (['.', 'e', 'E', 'f', 'F', 'd', 'D'].contains ·) = false := by
      have digits : ∀ c ∈ cs.take whole, isDecimalPart c = true := by
        intro c hc
        rw [← hwhole] at hc
        exact mem_take_runLength hc
      have suffix : ∀ c ∈ (cs.drop whole).take (suffixLength ['l', 'L'] (cs.drop whole)),
          (c == 'l' || c == 'L') = true := by
        intro c hc
        simpa using mem_take_suffixLength hc
      rw [List.take_add, List.any_append, any_contains_eq_false rfl digits,
        any_contains_eq_false rfl suffix]
      rfl
    split at h
    · rename_i plain
      cases h
      have short : isPadded (cs.take (whole + suffixLength ['l', 'L'] (cs.drop whole))) = false := by
        rw [← Bool.not_eq_true]
        intro padded
        obtain ⟨c, rest, split, part⟩ := exists_of_isPadded padded
        have begins : cs = '0' :: c :: (rest ++ cs.drop (whole + suffixLength ['l', 'L'] (cs.drop whole))) := by
          rw [← List.cons_append, ← List.cons_append, ← split, List.take_append_drop]
        rw [begins, List.head?_cons] at plain
        have one : whole = 1 := by simpa using plain
        rw [one, begins, runLength, List.takeWhile_cons_of_pos (by decide),
          List.takeWhile_cons_of_pos part] at hwhole
        simp at hwhole
      rw [decimalKind, long, short]
      rfl
    · rename_i plain
      split at h
      · cases h
        rw [Bool.not_eq_true, Bool.or_eq_false_iff, beq_eq_false_iff_ne, bne_eq_false_iff_eq] at plain
        obtain ⟨ds, rfl⟩ := List.head?_eq_some_iff.1 plain.2
        have padded : isPadded (('0' :: ds).take
            (whole + suffixLength ['l', 'L'] (('0' :: ds).drop whole))) = true := by
          have more := hwhole
          rw [runLength, List.takeWhile_cons_of_pos (by decide)] at more
          cases ds with
          | nil => exact (plain.1 more.symm).elim
          | cons d ds =>
            cases part : isDecimalPart d with
            | false =>
              rw [List.takeWhile_cons_of_neg (by rw [part]; exact Bool.false_ne_true)] at more
              exact (plain.1 more.symm).elim
            | true =>
              rw [List.takeWhile_cons_of_pos part, List.length_cons, List.length_cons] at more
              rw [← more, Nat.add_right_comm, List.take_succ_cons, Nat.add_right_comm, List.take_succ_cons]
              exact part
        rw [decimalKind, long, padded]
        rfl
      · cases h

/-- What begins with a digit, or with a point, is not empty. -/
theorem scanDecimal_pos (begins : isDecimalPart c = true ∨ c = '.') : 0 < (scanDecimal (c :: cs)).2 := by
  rw [scanDecimal]
  dsimp only
  rcases begins with digit | rfl
  · have whole : 0 < runLength isDecimalPart (c :: cs) := by
      rw [runLength, List.takeWhile_cons_of_pos digit]
      exact Nat.succ_pos _
    repeat' split
    all_goals
      dsimp only
      omega
  · have whole : runLength isDecimalPart ('.' :: cs) = 0 := by
      rw [runLength, List.takeWhile_cons_of_neg (by decide)]
      rfl
    rw [whole, List.drop_zero, List.head?_cons, beq_self_eq_true, if_pos rfl, if_pos (by simp)]
    dsimp only
    omega

theorem numberKind_eq (plain : ∀ x rest, w = '0' :: x :: rest →
    (x == 'x' || x == 'X') = false ∧ (x == 'b' || x == 'B') = false) : numberKind w = decimalKind w := by
  unfold numberKind
  split
  · rename_i x rest
    obtain ⟨hex, binary⟩ := plain x rest rfl
    rw [hex, binary]
    rfl
  · rfl

theorem kind_of_number (begins : isDecimalPart c = true ∨ c = '.')
    (h : scan.number c cs = (.token (.literal k), n)) : k = decimalKind (c :: cs.take n) := by
  have pos := @scanDecimal_pos cs c begins
  rw [scan.number] at h
  cases scanned : scanDecimal (c :: cs) with
  | mk kind m =>
    rw [scanned] at h pos
    cases h
    have known := kind_of_scanDecimal scanned
    obtain ⟨m, rfl⟩ := Nat.exists_eq_succ_of_ne_zero (Nat.pos_iff_ne_zero.1 pos)
    exact known

theorem literalKind_eq (begins : isDecimalPart c = true ∨ c = '.') :
    literalKind (c :: cs) = numberKind (c :: cs) := by
  unfold literalKind
  split
  · rename_i same
    cases same
    exact absurd begins (by decide)
  · rename_i same
    cases same
    exact absurd begins (by decide)
  · rename_i same
    cases same
    exact absurd begins (by decide)
  · rename_i same
    cases same
    exact absurd begins (by decide)
  · rfl

theorem isDecimalPart_of_isDigit (h : c.isDigit = true) : isDecimalPart c = true := by
  rw [isDecimalPart, h]
  rfl

/-- The scan tells the kind of a literal by its characters. -/
theorem kind_of_scan (h : scan c cs = (.token (.literal k), n)) : k = literalKind (c :: cs.take n) := by
  have mark (h : scanMark c cs = (.token (.literal k), n)) : False := by
    unfold scanMark at h
    split at h
    · cases h
    · split at h <;> cases h
  unfold scan at h
  split at h
  · cases h
  · split at h <;> cases h
  · split at h
    · cases h
      rfl
    · cases h
  · split at h
    · cases h
      rfl
    · cases h
  · split at h
    · cases h
      rfl
    · cases h
  · rename_i x rest
    split at h
    · rename_i hex
      cases scanned : scanHex rest with
      | mk kind m =>
        rw [scanned] at h
        cases h
        rw [Nat.add_comm, List.take_succ_cons, literalKind_eq (.inl (by decide))]
        show k = if _ then _ else _
        rw [if_pos hex]
        exact kind_of_scanHex scanned
    · rename_i hex
      split at h
      · rename_i binary
        cases h
        rw [Nat.add_assoc, Nat.add_comm, List.take_succ_cons, literalKind_eq (.inl (by decide))]
        show _ = if _ then _ else _
        rw [if_neg hex, if_pos binary]
      · rename_i binary
        rw [kind_of_number (.inl (by decide)) h, literalKind_eq (.inl (by decide)), numberKind_eq]
        intro y ys split
        have same : x = y := by
          cases n with
          | zero => cases split
          | succ n =>
            rw [List.take_succ_cons] at split
            cases split
            rfl
        rw [← same]
        exact ⟨Bool.eq_false_iff.2 hex, Bool.eq_false_iff.2 binary⟩
  · split at h
    · rw [kind_of_number (.inr rfl) h, literalKind_eq (.inr rfl), numberKind_eq]
      intro y ys split
      cases split
    · exact (mark h).elim
  · rename_i noZero _
    split at h
    · cases h
    · split at h
      · rename_i digit
        have begins := isDecimalPart_of_isDigit digit
        rw [kind_of_number (.inl begins) h, literalKind_eq (.inl begins), numberKind_eq]
        intro y ys split
        obtain ⟨rfl, taken⟩ := List.cons.inj split
        cases cs with
        | nil =>
          rw [List.take_nil] at taken
          cases taken
        | cons x rest => exact (noZero x rest rfl rfl).elim
      · exact (mark h).elim

/-! ### The kinds that the forms of literals have -/

section

variable {form : LiteralForm} {numeral significand exponent suffix : List Char} {type : String}
  {dotted : Bool}

theorem mem_of_areDigits (h : areDigits p cs = true) (hc : c ∈ cs) : (p c || c == '_') = true := by
  rw [areDigits, Bool.and_eq_true, Bool.and_eq_true] at h
  exact List.all_eq_true.1 h.1.1 c hc

theorem exists_of_areDigits (h : areDigits p cs = true) : ∃ d ds, cs = d :: ds ∧ p d = true := by
  rw [areDigits, Bool.and_eq_true, Bool.and_eq_true] at h
  cases cs with
  | nil => cases h.1.2
  | cons d ds => exact ⟨d, ds, rfl, h.1.2⟩

theorem isDecimalPart_of_mem (h : areDigits Char.isDigit cs = true) (hc : c ∈ cs) :
    isDecimalPart c = true :=
  mem_of_areDigits h hc

theorem isDecimalPart_of_octal (h : (isOctalDigit c || c == '_') = true) : isDecimalPart c = true := by
  rcases Bool.or_eq_true_iff.1 h with octal | underscore
  · rw [isOctalDigit, Bool.and_eq_true, decide_eq_true_eq, decide_eq_true_eq] at octal
    apply isDecimalPart_of_isDigit
    rw [Char.isDigit, Bool.and_eq_true, decide_eq_true_eq, decide_eq_true_eq]
    exact ⟨octal.1, UInt32.le_trans octal.2 (by decide)⟩
  · rw [eq_of_beq underscore]
    rfl

/-- What begins with a digit has the kind of a number in base ten if no mark of another base follows. -/
theorem literalKind_of_plain (begins : isDecimalPart c = true ∨ c = '.')
    (plain : ∀ d ∈ cs, ['x', 'X', 'b', 'B'].contains d = false) :
    literalKind (c :: cs) = decimalKind (c :: cs) := by
  rw [literalKind_eq begins, numberKind_eq]
  intro x rest split
  obtain ⟨rfl, rfl⟩ := List.cons.inj split
  have none := plain x List.mem_cons_self
  simp only [List.contains_cons, List.contains_nil, Bool.or_false, Bool.or_eq_false_iff] at none
  obtain ⟨a, b, c, d⟩ := none
  rw [a, b, c, d]
  exact ⟨rfl, rfl⟩

/-- Whether a character may stand in an integer in base eight or ten. -/
def isIntegerPart (c : Char) : Bool :=
  isDecimalPart c || (c == 'l' || c == 'L')

/-- An integer in base eight or ten is octal if further digits follow a zero. -/
theorem literalKind_of_integer (begins : isDecimalPart c = true)
    (all : ∀ d ∈ c :: cs, isIntegerPart d = true) :
    literalKind (c :: cs) =
      if isPadded (c :: cs) then .octalIntegerLiteral else .decimalIntegerLiteral := by
  have plain : ∀ d ∈ cs, ['x', 'X', 'b', 'B'].contains d = false := fun d hd =>
    not_contains rfl (all d (List.mem_cons_of_mem _ hd))
  rw [literalKind_of_plain (.inl begins) plain, decimalKind,
    any_contains_eq_false (p := isIntegerPart) rfl all]
  rfl

/-- An integer has the kind of its form, with or without a suffix. -/
theorem literalKind_of_isNumeral (digits : isNumeral form numeral = true)
    (ends : ∀ c ∈ suffix, (c == 'l' || c == 'L') = true) (known : form.kind? = some k) :
    literalKind (numeral ++ suffix) = k := by
  have integer (all : ∀ c ∈ numeral, isDecimalPart c = true) :
      ∀ c ∈ numeral ++ suffix, isIntegerPart c = true := by
    intro c hc
    rw [isIntegerPart, Bool.or_eq_true]
    exact (List.mem_append.1 hc).imp (all c) (ends c)
  unfold isNumeral at digits
  split at digits
  · cases known
    rcases Bool.or_eq_true_iff.1 digits with zero | digits
    · cases eq_of_beq zero
      have short : isPadded ('0' :: suffix) = false := by
        cases suffix with
        | nil => rfl
        | cons d ds =>
          have letter := ends d List.mem_cons_self
          rcases Bool.or_eq_true_iff.1 letter with l | l <;> rw [eq_of_beq l] <;> rfl
      exact (literalKind_of_integer rfl (integer fun c hc => List.mem_singleton.1 hc ▸ rfl)).trans
        (if_neg (Bool.eq_false_iff.1 short))
    · rw [Bool.and_eq_true] at digits
      obtain ⟨d, ds, rfl, digit⟩ := exists_of_areDigits digits.1
      have short : isPadded (d :: (ds ++ suffix)) = false := by
        rw [← Bool.not_eq_true]
        intro padded
        obtain ⟨_, _, same, _⟩ := exists_of_isPadded padded
        rw [(List.cons.inj same).1] at digits
        cases digits.2
      exact (literalKind_of_integer (isDecimalPart_of_isDigit digit)
        (integer fun c hc => isDecimalPart_of_mem digits.1 hc)).trans
          (if_neg (Bool.eq_false_iff.1 short))
  · cases known
    rw [Bool.and_eq_true] at digits
    rw [List.cons_append, List.cons_append, literalKind_eq (.inl (by decide))]
    show (if _ then _ else _) = _
    rw [if_pos digits.1, List.any_append,
      any_contains_eq_false rfl fun c hc => mem_of_areDigits digits.2 hc,
      any_contains_eq_false rfl ends]
    rfl
  · cases known
    have all := integer fun c hc => isDecimalPart_of_octal (mem_of_areDigits digits hc)
    have padded := isDecimalPart_of_octal
      (mem_of_areDigits digits (List.mem_cons_of_mem _ List.mem_cons_self))
    exact (literalKind_of_integer (by decide) all).trans (if_pos padded)
  · cases known
    rw [Bool.and_eq_true] at digits
    rw [List.cons_append, List.cons_append, literalKind_eq (.inl (by decide))]
    show (if _ then _ else if _ then _ else _) = _
    rw [if_pos digits.1, if_neg]
    rcases Bool.or_eq_true_iff.1 digits.1 with b | b <;> rw [eq_of_beq b] <;> decide
  · cases digits

/-- Whether a character may stand in a decimal fraction. -/
def isFractionPart (c : Char) : Bool :=
  isDecimalPart c || ['.', 'e', 'E', '+', '-', 'f', 'F', 'd', 'D'].contains c

theorem isFractionPart_of_digit (h : (c.isDigit || c == '_') = true) : isFractionPart c = true := by
  rw [isFractionPart, isDecimalPart, h]
  rfl

theorem isFractionPart_of_mark (known : marks.contains c = true)
    (sub : marks ⊆ ['.', 'e', 'E', '+', '-', 'f', 'F', 'd', 'D']) : isFractionPart c = true := by
  rw [isFractionPart, mem_marks known sub, Bool.or_true]

/-- An exponent begins with its mark. -/
theorem exists_of_isExponent (h : isExponent marks exponent = true) :
    ∃ e rest, exponent = e :: rest ∧ marks.contains e = true ∧ ∀ c ∈ rest, isFractionPart c = true := by
  unfold isExponent at h
  split at h
  · rename_i e sign cs
    rw [Bool.and_eq_true, Bool.or_eq_true] at h
    refine ⟨e, _, rfl, h.1, ?_⟩
    intro c hc
    rcases h.2 with digits | signed
    · exact isFractionPart_of_digit (mem_of_areDigits digits hc)
    · rw [Bool.and_eq_true] at signed
      rcases List.mem_cons.1 hc with rfl | hc
      · rcases Bool.or_eq_true_iff.1 signed.1 with s | s <;> rw [eq_of_beq s] <;> decide
      · exact isFractionPart_of_digit (mem_of_areDigits signed.2 hc)
  · cases h

theorem FractionSuffix.contains (h : FractionSuffix suffix type) :
    ∀ c ∈ suffix, ['f', 'F', 'd', 'D'].contains c = true := by
  intro c hc
  cases h with
  | none => cases hc
  | double letter => rcases letter with rfl | rfl <;> cases List.mem_singleton.1 hc <;> decide
  | float letter => rcases letter with rfl | rfl <;> cases List.mem_singleton.1 hc <;> decide

/-- A significand begins with a digit or its point. -/
theorem Significand.exists_cons (h : Significand Char.isDigit dotted significand) :
    ∃ c cs, significand = c :: cs ∧ (isDecimalPart c = true ∨ c = '.') ∧
      (∀ d ∈ significand, isFractionPart d = true) ∧ (dotted = true → '.' ∈ significand) := by
  cases h with
  | whole digits =>
    obtain ⟨d, ds, split, digit⟩ := exists_of_areDigits digits
    exact ⟨d, ds, split, .inl (isDecimalPart_of_isDigit digit),
      fun c hc => isFractionPart_of_digit (mem_of_areDigits digits hc), nofun⟩
  | @dotted whole fraction before after some =>
    have digits {cs : List Char} (h : cs = [] ∨ areDigits Char.isDigit cs = true) :
        ∀ c ∈ cs, isFractionPart c = true := by
      intro c hc
      rcases h with rfl | h
      · cases hc
      · exact isFractionPart_of_digit (mem_of_areDigits h hc)
    have all : ∀ d ∈ whole ++ '.' :: fraction, isFractionPart d = true := by
      intro c hc
      rcases List.mem_append.1 hc with hc | hc
      · exact digits before c hc
      · rcases List.mem_cons.1 hc with rfl | hc
        · decide
        · exact digits after c hc
    have point : '.' ∈ whole ++ '.' :: fraction := List.mem_append_right _ List.mem_cons_self
    rcases before with rfl | before
    · exact ⟨'.', fraction, rfl, .inr rfl, all, fun _ => point⟩
    · obtain ⟨d, ds, rfl, digit⟩ := exists_of_areDigits before
      exact ⟨d, ds ++ '.' :: fraction, rfl, .inl (isDecimalPart_of_isDigit digit), all, fun _ => point⟩

/-- A decimal fraction is known by its point, its exponent or its suffix. -/
theorem literalKind_of_fraction (digits : Significand Char.isDigit dotted significand)
    (power : exponent = [] ∨ isExponent ['e', 'E'] exponent = true)
    (ending : FractionSuffix suffix type) (proper : dotted = true ∨ exponent ≠ [] ∨ suffix ≠ []) :
    literalKind (significand ++ (exponent ++ suffix)) = .decimalFloatingPointLiteral := by
  obtain ⟨c, cs, rfl, begins, all, point⟩ := digits.exists_cons
  have tail : ∀ d ∈ exponent ++ suffix, isFractionPart d = true := by
    intro d hd
    rcases List.mem_append.1 hd with hd | hd
    · rcases power with rfl | power
      · cases hd
      · obtain ⟨e, rest, rfl, mark, rest_⟩ := exists_of_isExponent power
        rcases List.mem_cons.1 hd with rfl | hd
        · exact isFractionPart_of_mark mark (by decide)
        · exact rest_ d hd
    · exact isFractionPart_of_mark (ending.contains d hd) (by decide)
  have plain : ∀ d ∈ cs ++ (exponent ++ suffix), ['x', 'X', 'b', 'B'].contains d = false := by
    intro d hd
    apply @not_contains isFractionPart _ d rfl
    exact (List.mem_append.1 hd).elim (fun hd => all d (List.mem_cons_of_mem _ hd)) (tail d)
  have marked : ((c :: cs) ++ (exponent ++ suffix)).any
      (['.', 'e', 'E', 'f', 'F', 'd', 'D'].contains ·) = true := by
    rw [List.any_append, List.any_append, Bool.or_eq_true, Bool.or_eq_true]
    rcases proper with dotted | some | some
    · exact .inl (List.any_eq_true.2 ⟨'.', point dotted, by decide⟩)
    · obtain ⟨e, rest, rfl, mark, _⟩ := exists_of_isExponent (power.resolve_left some)
      exact .inr (.inl (List.any_eq_true.2 ⟨e, List.mem_cons_self, mem_marks mark (by decide)⟩))
    · obtain ⟨l, ls, rfl⟩ := List.exists_cons_of_ne_nil some
      exact .inr (.inr (List.any_eq_true.2
        ⟨l, List.mem_cons_self, mem_marks (ending.contains l List.mem_cons_self) (by decide)⟩))
  exact (literalKind_of_plain begins plain).trans (if_pos marked)

/-- The characters of a literal tell the kind of its form. -/
theorem literalKind_of_literal (h : Literal form w type) (known : form.kind? = some k) :
    literalKind w = k := by
  cases h with
  | integer digits =>
    rw [← List.append_nil w]
    exact literalKind_of_isNumeral digits (fun c hc => (List.not_mem_nil hc).elim) known
  | long digits suffix =>
    apply literalKind_of_isNumeral digits _ known
    intro c hc
    rcases suffix with rfl | rfl <;> cases List.mem_singleton.1 hc <;> rfl
  | decimalFraction digits power ending proper =>
    cases known
    exact literalKind_of_fraction digits power ending proper
  | @hexFraction x _ significand exponent suffix _ mark digits power ending =>
    cases known
    have hex : (x == 'x' || x == 'X') = true := by rcases mark with rfl | rfl <;> rfl
    have fractional : (significand ++ (exponent ++ suffix)).any (['p', 'P'].contains ·) = true := by
      obtain ⟨e, rest, rfl, known, _⟩ := exists_of_isExponent power
      rw [List.any_append, List.any_append, List.any_cons, known]
      simp
    rw [literalKind_eq (.inl (by decide))]
    show (if _ then _ else _) = _
    rw [if_pos hex, fractional]
    rfl
  | character sort =>
    cases known
    rfl
  | string closed =>
    cases known
    rfl
  | textBlock =>
    cases known
    rfl
  | truth => cases known

end

/-! ### Literals in trees -/

/-- The kinds of the literals that a type is known for, or may be. -/
def literalKinds : List Kind :=
  [.decimalIntegerLiteral, .hexIntegerLiteral, .octalIntegerLiteral, .binaryIntegerLiteral,
    .decimalFloatingPointLiteral, .hexFloatingPointLiteral, .characterLiteral, .stringLiteral,
    .trueLiteral, .falseLiteral]

section

variable {source : String} {m : Node}

theorem Written.text {word : List Char} {start stop : Nat}
    (h : Written source.toList word start stop) :
    ((Text.Source.ofString source).textOf start stop).toList = word := by
  obtain ⟨front, back, whole, first, last⟩ := h
  rw [Text.Source.textOf, Text.Source.slice_eq, Text.Source.toBytes_ofString, Text.encode_eq, whole,
    Text.encodeChars_between first last, Text.decodeLossy_encodeChars, String.toList_ofList]

/-- A literal in a tree has the kind that its characters tell. -/
theorem Node.Scans.literalKind (h : m.Scans source.toList) (is : m.isAny literalKinds = true) :
    m.label = .kind (Java.literalKind (m.text (.ofString source)).toList) := by
  have token {k : Kind} (label : m.label = .kind k) (own : k.isLiteral = true) :
      m.label = .kind (Java.literalKind (m.text (.ofString source)).toList) := by
    have lexeme : m.label.lexeme? = some (.token (.literal k)) := by
      rw [label, Label.lexeme?, (plain_of_isLiteral own).1, if_neg Bool.false_ne_true, if_pos own]
    obtain ⟨c, cs, n, scanned, text⟩ := (h.lexeme _ lexeme).exists_text
    rw [label, Node.text, text, ← kind_of_scan scanned]
  rw [Node.isAny, List.any_eq_true] at is
  obtain ⟨k, hk, is⟩ := is
  have label : m.label = .kind k := beq_iff_eq.1 is
  simp only [literalKinds, List.mem_cons, List.not_mem_nil, or_false] at hk
  rcases hk with rfl | rfl | rfl | rfl | rfl | rfl | rfl | rfl | rfl | rfl
  iterate 8 · exact token label rfl
  · have word := (h.word "true" (by rw [label]; rfl)).text
    rw [label, Node.text, word]
    rfl
  · have word := (h.word "false" (by rw [label]; rfl)).text
    rw [label, Node.text, word]
    rfl

end

end MonoTap.Java

namespace MonoTap.Receiver

open Java (Cursor Literal LiteralForm Node literalKinds)
open Text (Source)

/-- A call of a factory whose argument is a literal, and whose type argument is not given. -/
structure IsLiteralFactory (source : Source) (call value : Node) : Prop where
  invocation : call.is .methodInvocation = true
  receiver : partText source call .object ∈ [monoSimpleName, monoName]
  name : partText source call .name ∈ ["just", "justOrEmpty"]
  plain : call.child? .typeArguments = none
  argument : (call.child? .arguments).map Node.namedChildren = some [value]
  literal : value.isAny literalKinds = true

/-- A part that has a text is there. -/
theorem exists_of_partText {source : Source} {n : Node} {role : Java.Role} {names : List String}
    (h : partText source n role ∈ names) (nonempty : "" ∉ names) :
    ∃ m, n.child? role = some m ∧ m.text source = partText source n role := by
  rw [partText] at h ⊢
  cases found : n.child? role with
  | none =>
    rw [found] at h
    exact (nonempty h).elim
  | some m => exact ⟨m, rfl, rfl⟩

theorem not_identifier_of_literal {value : Node} (h : value.isAny literalKinds = true) :
    value.is .identifier = false := by
  rw [← Bool.not_eq_true]
  intro is
  rw [Node.is, beq_iff_eq] at is
  rw [Node.isAny, List.any_eq_true] at h
  obtain ⟨k, hk, same⟩ := h
  rw [Node.is, beq_iff_eq, is] at same
  cases same
  exact absurd hk (by decide)

section

variable {source : Source} {call : Cursor} {value : Node} (h : IsLiteralFactory source call.node value)
include h

theorem factoryType_of_isLiteralFactory (nameType? : Cursor → Option ResolvedType) (mono : String) :
    factoryType source nameType? mono (partText source call.node .name) call =
      ⟨mono, [literalTypeOf? value]⟩ := by
  obtain ⟨arguments, found, single⟩ := Option.map_eq_some_iff.1 h.argument
  have named : (partText source call.node .name == "just" ||
      partText source call.node .name == "justOrEmpty") = true := by
    simpa using h.name
  rw [factoryType, h.plain]
  dsimp only [Option.map_none, Option.getD_none]
  rw [if_pos named, found]
  dsimp only
  rw [single]
  dsimp only
  cases literalTypeOf? value with
  | some literal => rfl
  | none =>
    dsimp only
    rw [not_identifier_of_literal h.literal]
    rfl

/-- The type of the values of a factory call with a literal is that of the literal. -/
theorem type?_of_isLiteralFactory :
    type? source call = some ⟨partText source call.node .object, [literalTypeOf? value]⟩ := by
  obtain ⟨object, found, text⟩ := exists_of_partText h.receiver (by decide)
  have isMono : (object.text source == monoSimpleName || object.text source == monoName) = true := by
    have known := h.receiver
    rw [← text] at known
    simpa using known
  have within (nameType? : Cursor → Option ResolvedType) : typeWithin? source nameType? levels call =
      some ⟨partText source call.node .object, [literalTypeOf? value]⟩ := by
    rw [levels, typeWithin?, beq_iff_eq.1 h.invocation]
    dsimp only
    rw [found]
    dsimp only
    rw [if_pos isMono, text]
    exact congrArg some (factoryType_of_isLiteralFactory h nameType? _)
  rw [type?]
  cases source.size with
  | zero => exact within _
  | succ hops => exact within _

end

/-- The type that is found for the literals of some form. -/
def formType? : LiteralForm → Option String
  | .decimalInteger | .hexInteger => some "Integer"
  | .decimalFraction => some "Double"
  | .character => some "Character"
  | .string => some "String"
  | .truth => some "Boolean"
  | .octalInteger | .binaryInteger | .hexFraction => none

theorem formType?_eq_none_iff (form : LiteralForm) :
    formType? form = none ↔ form ∈ [.octalInteger, .binaryInteger, .hexFraction] := by
  cases form <;> decide

/-- The type that is found is that of the literal, unless this is a long or a float. -/
theorem formType?_eq_iff {form : LiteralForm} {w : List Char} {type found : String}
    (h : Literal form w type) (hf : formType? form = some found) :
    found = type ↔ type ≠ "Long" ∧ type ≠ "Float" := by
  cases h with
  | integer digits => cases form <;> cases hf <;> first | cases digits | decide
  | long => cases form <;> cases hf <;> decide
  | decimalFraction digits power ending =>
    cases hf
    cases ending <;> decide
  | hexFraction mark digits power ending => cases hf
  | character sort =>
    cases hf
    decide
  | string closed =>
    cases hf
    decide
  | textBlock blank feed closed =>
    cases hf
    decide
  | truth known =>
    cases hf
    decide

/-- The type that is found for a literal is that for its form. -/
theorem literalTypeOf?_eq_formType? {source : String} {value : Node} {form : LiteralForm} {type : String}
    (scans : value.Scans source.toList) (is : value.isAny literalKinds = true)
    (h : Literal form (value.text (.ofString source)).toList type) :
    literalTypeOf? value = formType? form := by
  rw [literalTypeOf?, scans.literalKind is]
  dsimp only
  generalize (value.text (.ofString source)).toList = w at h
  cases known : form.kind? with
  | some k =>
    rw [Java.literalKind_of_literal h known]
    cases form <;> cases known <;> rfl
  | none =>
    cases h with
    | integer digits => cases form <;> first | cases digits | cases known
    | long digits => cases form <;> first | cases digits | cases known
    | truth word => rcases word with rfl | rfl <;> rfl
    | _ => cases known

end MonoTap.Receiver

namespace MonoTap

open Java (CompilationUnit Cursor Literal Node)
open Receiver (IsLiteralFactory)

/-- The factory calls of a text whose argument is a literal have no type for their values if the literal is
an octal or binary integer or a fraction in base sixteen. Else the type is the boxed type that the
language gives the literal, unless that is `Long` or `Float`. -/
theorem literal_factories_typed (text : String) :
    let u := CompilationUnit.ofString text
    u.hasSyntaxErrors = false → ∀ call ∈ u.root.cursors [], ∀ value,
      IsLiteralFactory u.source call.node value → ∀ form type,
      Literal form (value.text u.source).toList type →
      ∃ found, Receiver.type? u.source call =
          some ⟨partText u.source call.node .object, [found]⟩ ∧
        (found = none ↔ form ∈ [.octalInteger, .binaryInteger, .hexFraction]) ∧
        ∀ name, found = some name → (name = type ↔ type ≠ "Long" ∧ type ≠ "Float") := by
  intro u clean call hc value factory form type literal
  have inTree : call.node ∈ u.root.preorder :=
    (Node.map_node_cursors [] u.root).subset (List.mem_map_of_mem hc)
  obtain ⟨arguments, found, single⟩ := Option.map_eq_some_iff.1 factory.argument
  have inside : value ∈ arguments.children :=
    Node.mem_children_of_mem_namedChildren (single ▸ List.mem_singleton_self value)
  have deeper := Receiver.mem_preorderAll_of_child inTree (Node.mem_children_of_child? found)
  have inText := Receiver.mem_preorderAll_of_child (Node.preorder_eq u.root ▸ List.mem_cons_of_mem _ deeper)
    inside
  have scans := Java.scans_of_mem_parse clean inText
  have typed := Receiver.literalTypeOf?_eq_formType? scans factory.literal literal
  refine ⟨_, Receiver.type?_of_isLiteralFactory factory, ?_, ?_⟩
  · rw [typed]
    exact Receiver.formType?_eq_none_iff form
  · intro name resolved
    exact Receiver.formType?_eq_iff literal (typed ▸ resolved)

/-- A call of a factory with an integer in base sixteen. -/
def hexLiteralText : String :=
  "class C\x7b\x7bMono.just(0xF_F);\x7d\x7d"

set_option maxRecDepth 100000 in
theorem read_hexLiteralText :
    let u := CompilationUnit.ofString hexLiteralText
    u.hasSyntaxErrors = false ∧
      ((u.root.cursors []).any fun call =>
        call.node.is .methodInvocation && partText u.source call.node .object == "Mono" &&
        partText u.source call.node .name == "just" && (call.node.child? .typeArguments).isNone &&
        ((call.node.child? .arguments).map Node.namedChildren).any fun values =>
          values.length == 1 && values.all fun value =>
            value.isAny Java.literalKinds && value.text u.source == "0xF_F") = true := by
  rw [CompilationUnit.ofString_eq_ofCharsOf]
  decide +kernel

theorem literal_factories_typed_of_hex :
    let u := CompilationUnit.ofString hexLiteralText
    u.hasSyntaxErrors = false ∧ ∃ call ∈ u.root.cursors [], ∃ value,
      IsLiteralFactory u.source call.node value ∧
      Literal .hexInteger (value.text u.source).toList "Integer" ∧
      Receiver.type? u.source call = some ⟨"Mono", [some "Integer"]⟩ := by
  intro u
  obtain ⟨clean, found⟩ := read_hexLiteralText
  obtain ⟨call, hc, found⟩ := List.any_eq_true.1 found
  simp only [Bool.and_eq_true, beq_iff_eq, Option.isNone_iff_eq_none, Option.any_eq_true] at found
  obtain ⟨⟨⟨⟨invocation, object⟩, name⟩, plain⟩, values, given, one, all⟩ := found
  obtain ⟨value, rfl⟩ := List.length_eq_one_iff.1 one
  rw [List.all_cons, List.all_nil, Bool.and_true, Bool.and_eq_true, beq_iff_eq] at all
  have factory : IsLiteralFactory u.source call.node value :=
    ⟨invocation, by rw [object]; decide, by rw [name]; decide, plain, given, all.1⟩
  have literal : Literal .hexInteger (value.text u.source).toList "Integer" := by
    rw [all.2]
    exact .integer (by decide)
  obtain ⟨found, type, absent, same⟩ :=
    literal_factories_typed hexLiteralText clean call hc value factory _ _ literal
  refine ⟨clean, call, hc, value, factory, literal, ?_⟩
  rw [type, object]
  cases found with
  | none => exact absurd (absent.1 rfl) (by decide)
  | some name => rw [(same name rfl).2 (by decide)]

end MonoTap

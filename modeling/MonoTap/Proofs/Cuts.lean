import Mathlib.Data.List.Find
import MonoTap.Proofs.InsertedComments

/-!
# Cuts

A text may be cut after a line feed or a semicolon that lies in no other lexeme: what is scanned before the
cut does not depend on what comes after it. So the tokens of the text are those before the cut and those
after it, and other text may be put in there.
-/

set_option autoImplicit false

namespace MonoTap.Java

/-- Whether a text may be cut after a character. -/
def isCut (s : Char) : Bool :=
  s == '\n' || s == ';'

variable {c s : Char} {cs g rest rest' : List Char} {n : Nat} {p : Char → Bool} {marks letters : List Char}

/-! ### What is measured up to a closing mark -/

/-- What is measured at the beginning of a text does not depend on what comes after it. -/
def IsMeasured (f : List Char → Option Nat) (cs : List Char) (n : Nat) : Prop :=
  ∃ front back, cs = front ++ back ∧ front.length = n ∧ ∀ rest, f (front ++ rest) = some n

theorem isMeasured_blockComment (h : blockCommentLength? cs = some n) :
    IsMeasured blockCommentLength? cs n := by
  fun_induction blockCommentLength? cs generalizing n with
  | case1 | case3 => cases h
  | case2 tail =>
    cases h
    exact ⟨['*', '/'], tail, rfl, rfl, fun rest => rfl⟩
  | case4 c cs other present ih =>
    obtain ⟨m, found, rfl⟩ := Option.map_eq_some_iff.1 h
    obtain ⟨_ | ⟨d, front⟩, back, rfl, length, same⟩ := ih found
    · cases same []
    refine ⟨c :: d :: front, back, rfl, congrArg (· + 1) length, fun rest => ?_⟩
    rw [List.cons_append, blockCommentLength?, if_neg present, same rest]
    · rfl
    · intro _ star slash
      exact other _ star (congrArg (· :: (front ++ back)) (List.cons.inj slash).1)

theorem runLength_append (all : cs.all p = true) (stop : ∀ d, rest.head? = some d → p d = false) :
    runLength p (cs ++ rest) = cs.length := by
  rw [runLength, List.takeWhile_append_of_pos (List.all_eq_true.1 all)]
  cases rest with
  | nil => simp
  | cons d rest => rw [List.takeWhile_cons_of_neg (by simp [stop d rfl]), List.append_nil]

theorem runLength_le (p : Char → Bool) (cs : List Char) : runLength p cs ≤ cs.length :=
  (List.takeWhile_sublist p).length_le

theorem length_of_le_runLength (h : n ≤ runLength p (cs.take n)) : (cs.take n).length = n := by
  have bound := runLength_le p (cs.take n)
  have short := cs.length_take_le n
  omega

/-- An escape of a fixed number of digits. -/
theorem isMeasured_digits {f : List Char → Option Nat} (h : n ≤ runLength isHexDigit (cs.take n))
    (same : ∀ rest, f (c :: (cs.take n ++ rest)) =
      if n ≤ runLength isHexDigit ((cs.take n ++ rest).take n) then some (n + 1) else none) :
    IsMeasured f (c :: cs) (n + 1) := by
  have length := length_of_le_runLength h
  refine ⟨c :: cs.take n, cs.drop n, ?_, congrArg (· + 1) length, fun rest => ?_⟩
  · rw [List.cons_append, List.take_append_drop]
  · have whole : (cs.take n ++ rest).take n = cs.take n := by
      rw [List.take_append_of_le_length (Nat.le_of_eq length.symm), List.take_take, Nat.min_self]
    rw [List.cons_append, same, whole, if_pos h]

theorem isMeasured_escape (h : escapeLength? cs = some n) : IsMeasured escapeLength? cs n := by
  unfold escapeLength? at h
  split at h
  · cases h
  · rename_i cs
    obtain ⟨digits, same⟩ := Option.ite_none_right_eq_some.1 h
    cases same
    exact isMeasured_digits digits fun rest => rfl
  · rename_i cs
    dsimp only at h
    split at h
    · rename_i tail closed
      obtain ⟨some, same⟩ := Option.ite_none_left_eq_some.1 h
      cases same
      have split := List.take_append_drop (runLength isHexDigit cs) cs
      rw [closed] at split
      have all : (cs.take (runLength isHexDigit cs)).all isHexDigit = true := by
        rw [runLength, ← List.prefix_iff_eq_take.1 (List.takeWhile_prefix _)]
        exact List.all_takeWhile
      have length : (cs.take (runLength isHexDigit cs)).length = runLength isHexDigit cs := by
        rw [List.length_take, Nat.min_eq_left (runLength_le _ cs)]
      generalize cs.take (runLength isHexDigit cs) = digits at split all length
      subst split
      refine ⟨'u' :: '{' :: (digits ++ ['}']), tail, by simp, by simp [length], fun rest => ?_⟩
      have run : runLength isHexDigit (digits ++ '}' :: rest) = digits.length :=
        runLength_append all fun d hd => by cases hd; rfl
      rw [List.cons_append, List.cons_append, List.append_assoc, List.singleton_append, escapeLength?]
      rw [run, List.drop_left, ← length, if_neg (by rwa [length])]
      rfl
    · cases h
  · rename_i cs plain
    obtain ⟨digits, same⟩ := Option.ite_none_right_eq_some.1 h
    cases same
    refine isMeasured_digits digits fun rest => ?_
    cases cs with
    | nil => exact absurd digits (by decide)
    | cons d cs =>
      rw [List.take_succ_cons, List.cons_append, escapeLength?]
      exact fun more open' => plain cs (by rw [(List.cons.inj open').1])
  · rename_i c cs hex long unicode
    obtain ⟨present, same⟩ := Option.ite_none_left_eq_some.1 h
    cases same
    refine ⟨[c], cs, rfl, rfl, fun rest => ?_⟩
    rw [List.singleton_append, escapeLength?, if_neg present]
    · exact hex
    · exact fun _ same _ => unicode same
    · exact unicode

/-- After an escape, what is measured goes on. -/
theorem IsMeasured.escape {f : List Char → Option Nat} {k m : Nat} (escape : IsMeasured escapeLength? cs k)
    (further : IsMeasured f (cs.drop k) m)
    (same : ∀ ds, escapeLength? ds = some k → f ('\\' :: ds) = (f (ds.drop k)).map (· + k + 1)) :
    IsMeasured f ('\\' :: cs) (m + k + 1) := by
  obtain ⟨front, back, rfl, rfl, escapes⟩ := escape
  rw [List.drop_left] at further
  obtain ⟨middle, last, rfl, rfl, measures⟩ := further
  refine ⟨'\\' :: (front ++ middle), last, by simp, by simp [Nat.add_comm], fun rest => ?_⟩
  rw [List.cons_append, List.append_assoc, same _ (escapes _), List.drop_left, measures]
  rfl

theorem isMeasured_string (h : stringLength? cs = some n) : IsMeasured stringLength? cs n := by
  fun_induction stringLength? cs generalizing n with
  | case1 | case4 => cases h
  | case2 tail =>
    cases h
    exact ⟨['"'], tail, rfl, rfl, fun rest => by rw [List.singleton_append, stringLength?]⟩
  | case3 rest ih =>
    obtain ⟨k, escape, h⟩ := Option.bind_eq_some_iff.1 h
    obtain ⟨m, found, h⟩ := Option.bind_eq_some_iff.1 h
    cases h
    refine (isMeasured_escape escape).escape (ih k found) fun ds escapes => ?_
    rw [stringLength?, escapes, Option.bind_eq_bind, Option.bind_some]
    cases stringLength? (ds.drop k) <;> rfl
  | case5 c rest close escape present ih =>
    obtain ⟨m, found, h⟩ := Option.bind_eq_some_iff.1 h
    cases h
    obtain ⟨front, back, rfl, length, same⟩ := ih found
    refine ⟨c :: front, back, rfl, congrArg (· + 1) length, fun rest => ?_⟩
    rw [List.cons_append, stringLength?, if_neg present, same rest]
    · rfl
    · exact close
    · exact escape

theorem three_le_textBlockLength (h : textBlockLength? cs = some n) : 3 ≤ n := by
  fun_induction textBlockLength? cs generalizing n with
  | case1 | case4 => cases h
  | case2 =>
    cases h
    exact Nat.le_refl 3
  | case3 rest ih =>
    obtain ⟨k, _, h⟩ := Option.bind_eq_some_iff.1 h
    obtain ⟨m, found, h⟩ := Option.bind_eq_some_iff.1 h
    cases h
    exact Nat.le_trans (ih k found) (by omega)
  | case5 c rest _ _ _ ih =>
    obtain ⟨m, found, h⟩ := Option.bind_eq_some_iff.1 h
    cases h
    exact Nat.le_succ_of_le (ih found)

theorem isMeasured_textBlock (h : textBlockLength? cs = some n) : IsMeasured textBlockLength? cs n := by
  fun_induction textBlockLength? cs generalizing n with
  | case1 | case4 => cases h
  | case2 tail =>
    cases h
    exact ⟨['"', '"', '"'], tail, rfl, rfl, fun rest => by
      rw [List.cons_append, List.cons_append, List.singleton_append, textBlockLength?]⟩
  | case3 rest ih =>
    obtain ⟨k, escape, h⟩ := Option.bind_eq_some_iff.1 h
    obtain ⟨m, found, h⟩ := Option.bind_eq_some_iff.1 h
    cases h
    refine (isMeasured_escape escape).escape (ih k found) fun ds escapes => ?_
    rw [textBlockLength?, escapes, Option.bind_eq_bind, Option.bind_some]
    cases textBlockLength? (ds.drop k) <;> rfl
  | case5 c rest close escape present ih =>
    obtain ⟨m, found, h⟩ := Option.bind_eq_some_iff.1 h
    cases h
    have three := three_le_textBlockLength found
    obtain ⟨_ | ⟨d, _ | ⟨e, front⟩⟩, back, rfl, length, same⟩ := ih found
    · exact absurd length (by rw [List.length_nil]; omega)
    · exact absurd length (by rw [List.length_singleton]; omega)
    refine ⟨c :: d :: e :: front, back, rfl, congrArg (· + 1) length, fun rest => ?_⟩
    rw [List.cons_append, textBlockLength?, if_neg present, same rest]
    · rfl
    · intro tail quote quotes
      obtain ⟨rfl, more⟩ := List.cons.inj quotes
      obtain ⟨rfl, _⟩ := List.cons.inj more
      exact close _ quote rfl
    · exact escape

theorem isMeasured_character_tail (h : characterLength?.tail cs = some n) :
    IsMeasured characterLength?.tail cs n := by
  fun_induction characterLength?.tail cs generalizing n with
  | case1 tail =>
    cases h
    exact ⟨['\''], tail, rfl, rfl, fun rest => rfl⟩
  | case2 | case4 | case6 => cases h
  | case3 c rest present ih =>
    obtain ⟨m, found, rfl⟩ := Option.map_eq_some_iff.1 h
    obtain ⟨front, back, rfl, length, same⟩ := ih found
    refine ⟨'\\' :: c :: front, back, rfl, congrArg (· + 2) length, fun rest => ?_⟩
    rw [List.cons_append, List.cons_append, characterLength?.tail, if_neg present, same rest]
    rfl
  | case5 c rest close escape plain ih =>
    obtain ⟨m, found, rfl⟩ := Option.map_eq_some_iff.1 h
    obtain ⟨front, back, rfl, length, same⟩ := ih found
    refine ⟨c :: front, back, rfl, congrArg (· + 1) length, fun rest => ?_⟩
    rw [List.cons_append, characterLength?.tail, if_neg plain, same rest]
    · rfl
    · exact close
    · exact fun _ _ same _ => plain (by rw [same]; rfl)

theorem isMeasured_character (h : characterLength? cs = some n) : IsMeasured characterLength? cs n := by
  unfold characterLength? at h
  split at h
  · rename_i c rest
    split at h
    · cases h
    · rename_i present
      obtain ⟨m, found, rfl⟩ := Option.map_eq_some_iff.1 h
      obtain ⟨front, back, rfl, length, same⟩ := isMeasured_character_tail found
      refine ⟨'\\' :: c :: front, back, rfl, congrArg (· + 2) length, fun rest => ?_⟩
      rw [List.cons_append, List.cons_append, characterLength?, if_neg present, same rest]
      rfl
  · rename_i c rest _
    split at h
    · cases h
    · rename_i plain
      obtain ⟨m, found, rfl⟩ := Option.map_eq_some_iff.1 h
      obtain ⟨front, back, rfl, length, same⟩ := isMeasured_character_tail found
      refine ⟨c :: front, back, rfl, congrArg (· + 1) length, fun rest => ?_⟩
      rw [List.cons_append, characterLength?, if_neg plain, same rest]
      · rfl
      · exact fun _ _ same _ => plain (by rw [same]; rfl)
  · cases h

/-! ### What is measured up to a character of another sort -/

theorem runLength_cut (other : p s = false) (g rest : List Char) :
    runLength p (g ++ s :: rest) = runLength p g := by
  rw [runLength, runLength, List.takeWhile_append, List.takeWhile_cons_of_neg (Bool.eq_false_iff.1 other),
    List.append_nil]
  split
  · rename_i all
    rw [all]
  · rfl

theorem suffixLength_cut (other : letters.contains s = false) (g rest : List Char) :
    suffixLength letters (g ++ s :: rest) = suffixLength letters g := by
  cases g with
  | nil => rw [List.nil_append, suffixLength, other, if_neg Bool.false_ne_true, suffixLength]
  | cons c g => rfl

theorem exponentLength_cut (other : marks.contains s = false) (plain : isDecimalPart s = false)
    (unsigned : (s == '+' || s == '-') = false) (g rest : List Char) :
    exponentLength marks (g ++ s :: rest) = exponentLength marks g := by
  match g with
  | [] =>
    cases rest with
    | nil => rfl
    | cons d rest =>
      rw [List.nil_append, exponentLength, other, if_neg Bool.false_ne_true]
      rfl
  | [e] =>
    have none : runLength isDecimalPart (s :: rest) = 0 := runLength_cut plain [] rest
    rw [List.singleton_append, exponentLength, unsigned]
    simp [exponentLength, none]
  | e :: sign :: g =>
    have signed : (if sign == '+' || sign == '-' then g ++ s :: rest else sign :: (g ++ s :: rest)) =
        (if sign == '+' || sign == '-' then g else sign :: g) ++ s :: rest := by
      split <;> rfl
    rw [List.cons_append, List.cons_append, exponentLength, exponentLength]
    dsimp only
    rw [signed, runLength_cut plain]

theorem exponentLength_le (marks cs : List Char) : exponentLength marks cs ≤ cs.length := by
  unfold exponentLength
  split
  · rename_i e sign cs
    split
    · have digits := runLength_le isDecimalPart cs
      have digits' := runLength_le isDecimalPart (sign :: cs)
      rw [List.length_cons] at digits'
      dsimp only
      rw [List.length_cons, List.length_cons]
      repeat' split
      all_goals omega
    · exact Nat.zero_le _
  · exact Nat.zero_le _

/-- A fraction after some digits. -/
def fractionLength (p : Char → Bool) (cs : List Char) : Nat :=
  if cs.head? == some '.' then 1 + runLength p (cs.drop 1) else 0

theorem fractionLength_cut (other : p s = false) (point : s ≠ '.') (g rest : List Char) :
    fractionLength p (g ++ s :: rest) = fractionLength p g := by
  cases g with
  | nil =>
    rw [List.nil_append, fractionLength, List.head?_cons, if_neg (by simpa using point)]
    rfl
  | cons c g =>
    rw [List.cons_append, fractionLength, fractionLength, List.head?_cons, List.head?_cons, List.drop_one,
      List.tail_cons, List.drop_one, List.tail_cons, runLength_cut other]

theorem fractionLength_le (p : Char → Bool) (cs : List Char) : fractionLength p cs ≤ cs.length := by
  cases cs with
  | nil => exact Nat.le_refl 0
  | cons c cs =>
    have digits := runLength_le p cs
    rw [fractionLength, List.drop_one, List.tail_cons, List.length_cons]
    split <;> omega

theorem drop_cut (h : n ≤ g.length) (rest : List Char) : (g ++ s :: rest).drop n = g.drop n ++ s :: rest :=
  List.drop_append_of_le_length h

/-- The lengths of the parts of a number: its digits, the fraction and the exponent. -/
theorem parts_cut (other : p s = false) (mark : marks.contains s = false) (cut : isCut s = true)
    (g rest : List Char) {whole fraction exponent : Nat} (hwhole : runLength p g = whole)
    (hfraction : fractionLength p (g.drop whole) = fraction)
    (hexponent : exponentLength marks (g.drop (whole + fraction)) = exponent) :
    whole + fraction + exponent ≤ g.length ∧ runLength p (g ++ s :: rest) = whole ∧
      fractionLength p ((g ++ s :: rest).drop whole) = fraction ∧
      exponentLength marks ((g ++ s :: rest).drop (whole + fraction)) = exponent := by
  have plain : s ≠ '.' ∧ isDecimalPart s = false ∧ (s == '+' || s == '-') = false := by
    rw [isCut, Bool.or_eq_true, beq_iff_eq, beq_iff_eq] at cut
    rcases cut with rfl | rfl <;> decide
  have first := hwhole ▸ runLength_le p g
  have second := hfraction ▸ fractionLength_le p (g.drop whole)
  have third := hexponent ▸ exponentLength_le marks (g.drop (whole + fraction))
  rw [List.length_drop] at second third
  refine ⟨by omega, (runLength_cut other g rest).trans hwhole, ?_, ?_⟩
  · rw [drop_cut first, fractionLength_cut other plain.1, hfraction]
  · rw [drop_cut (by omega), exponentLength_cut mark plain.2.1 plain.2.2, hexponent]

theorem fractionLength_drop (p : Char → Bool) (cs : List Char) (n : Nat) : fractionLength p (cs.drop n) =
    if (cs.drop n).head? == some '.' then 1 + runLength p (cs.drop (n + 1)) else 0 := by
  rw [fractionLength, List.drop_drop]

/-- Whether a character stands in a number in base sixteen. -/
def isHexPart (c : Char) : Bool :=
  isHexDigit c || c == '_'

theorem scanHex_cut (cut : isCut s = true) (g rest : List Char) : scanHex (g ++ s :: rest) = scanHex g := by
  have plain : isHexPart s = false ∧ ['p', 'P'].contains s = false ∧ ['l', 'L'].contains s = false ∧
      ['f', 'F', 'd', 'D'].contains s = false := by
    rw [isCut, Bool.or_eq_true, beq_iff_eq, beq_iff_eq] at cut
    rcases cut with rfl | rfl <;> decide
  have scanned (cs : List Char) : scanHex cs =
      let whole := runLength isHexPart cs
      let fraction := fractionLength isHexPart (cs.drop whole)
      let exponent := exponentLength ['p', 'P'] (cs.drop (whole + fraction))
      if exponent == 0 then
        if whole == 0 then (.stray, 0)
        else (.literal .hexIntegerLiteral, whole + suffixLength ['l', 'L'] (cs.drop whole))
      else
        let n := whole + fraction + exponent
        (.literal .hexFloatingPointLiteral, n + suffixLength ['f', 'F', 'd', 'D'] (cs.drop n)) := by
    rw [scanHex]
    simp only [fractionLength_drop]
    rfl
  obtain ⟨bound, hwhole, hfraction, hexponent⟩ := parts_cut plain.1 plain.2.1 cut g rest rfl rfl rfl
  rw [scanned, scanned]
  dsimp only
  rw [hwhole, hfraction, hexponent, drop_cut (runLength_le _ _), suffixLength_cut plain.2.2.1,
    drop_cut bound, suffixLength_cut plain.2.2.2]

theorem scanDecimal_cut (cut : isCut s = true) (g rest : List Char) :
    scanDecimal (c :: g ++ s :: rest) = scanDecimal (c :: g) := by
  have plain : isDecimalPart s = false ∧ ['e', 'E'].contains s = false ∧ ['l', 'L'].contains s = false ∧
      ['f', 'F', 'd', 'D'].contains s = false := by
    rw [isCut, Bool.or_eq_true, beq_iff_eq, beq_iff_eq] at cut
    rcases cut with rfl | rfl <;> decide
  have scanned (cs : List Char) : scanDecimal cs =
      let whole := runLength isDecimalPart cs
      let fraction := fractionLength isDecimalPart (cs.drop whole)
      let exponent := exponentLength ['e', 'E'] (cs.drop (whole + fraction))
      let n := whole + fraction + exponent
      let suffix := suffixLength ['f', 'F', 'd', 'D'] (cs.drop n)
      if fraction + exponent + suffix != 0 then (.literal .decimalFloatingPointLiteral, n + suffix)
      else
        let long := suffixLength ['l', 'L'] (cs.drop whole)
        if whole == 1 || cs.head? != some '0' then (.literal .decimalIntegerLiteral, whole + long)
        else if (cs.take whole).all (fun c => c != '8' && c != '9') then
          (.literal .octalIntegerLiteral, whole + long)
        else (.stray, whole) := by
    rw [scanDecimal]
    simp only [fractionLength_drop]
  obtain ⟨bound, hwhole, hfraction, hexponent⟩ := parts_cut plain.1 plain.2.1 cut (c :: g) rest rfl rfl rfl
  have short := runLength_le isDecimalPart (c :: g)
  rw [scanned, scanned]
  dsimp only
  rw [hwhole, hfraction, hexponent, drop_cut short, suffixLength_cut plain.2.2.1, drop_cut bound,
    suffixLength_cut plain.2.2.2, List.take_append_of_le_length short]
  rfl

theorem isPrefixOf_cut {w : List Char} (other : s ∉ w) (g rest : List Char) :
    w.isPrefixOf (g ++ s :: rest) = w.isPrefixOf g := by
  induction w generalizing g with
  | nil => rfl
  | cons c w ih =>
    rw [List.mem_cons, not_or] at other
    cases g with
    | nil =>
      show (c == s && w.isPrefixOf rest) = false
      rw [beq_false_of_ne (Ne.symm other.1), Bool.false_and]
    | cons d g => rw [List.cons_append, List.isPrefixOf, List.isPrefixOf, ih other.2]

theorem scanMark_cut (cut : isCut s = true) (g rest : List Char) :
    scanMark c (g ++ s :: rest) = scanMark c g := by
  have plain : ∀ mark ∈ longMarks, s ∉ mark.toList := by
    rw [isCut, Bool.or_eq_true, beq_iff_eq, beq_iff_eq] at cut
    rcases cut with rfl | rfl <;> decide
  rw [scanMark, scanMark, ← List.cons_append,
    List.find?_congr fun mark mem => isPrefixOf_cut (plain mark mem) (c :: g) rest]

/-! ### Lexemes -/

theorem number_cut (cut : isCut s = true) (g rest : List Char) :
    scan.number c (g ++ s :: rest) = scan.number c g := by
  rw [scan.number, scan.number, ← List.cons_append, scanDecimal_cut cut]

/-- What is measured within the text before some characters is measured before others. -/
theorem IsMeasured.before {f : List Char → Option Nat} (h : IsMeasured f (g ++ rest) n)
    (inside : n ≤ g.length) (rest' : List Char) : f (g ++ rest') = some n := by
  obtain ⟨front, back, split, rfl, same⟩ := h
  obtain ⟨more, rfl⟩ : front <+: g :=
    List.prefix_of_prefix_length_le ⟨back, split.symm⟩ (List.prefix_append g rest) inside
  rw [List.append_assoc]
  exact same _

/-- A run that ends before some characters is as long before others of which the first is the same. -/
theorem runLength_before (h : runLength p (g ++ s :: rest) ≤ g.length) (rest' : List Char) :
    runLength p (g ++ s :: rest') = runLength p (g ++ s :: rest) := by
  cases goes : p s with
  | false => rw [runLength_cut goes, runLength_cut goes]
  | true =>
    rw [runLength, List.takeWhile_append] at h
    rw [runLength, List.takeWhile_append, runLength, List.takeWhile_append]
    split at h
    · rw [List.takeWhile_cons_of_pos goes, List.length_append, List.length_cons] at h
      omega
    · rename_i some
      rw [if_neg some, if_neg some]

/-- A lexeme that ends before a line feed or a semicolon does not depend on what comes after it. -/
theorem scan_cut {lexeme : Lexeme} (cut : isCut s = true) (genuine : lexeme ≠ .token .stray)
    (h : scan c (g ++ s :: rest) = (lexeme, n)) (inside : n ≤ g.length) (rest' : List Char) :
    scan c (g ++ s :: rest') = (lexeme, n) := by
  have plain : isWordContinue s = false ∧ s ≠ '/' ∧ s ≠ '*' ∧ s ≠ '"' := by
    rw [isCut, Bool.or_eq_true, beq_iff_eq, beq_iff_eq] at cut
    rcases cut with rfl | rfl <;> decide
  have number := (number_cut (c := c) cut g rest').trans (number_cut cut g rest).symm
  have mark := (scanMark_cut (c := c) cut g rest').trans (scanMark_cut cut g rest).symm
  unfold scan at h
  split at h
  · rename_i tail split
    cases g with
    | nil => exact (plain.2.1 (List.cons.inj split).1).elim
    | cons d g =>
      rw [List.cons_append, List.cons.injEq] at split
      obtain ⟨rfl, rfl⟩ := split
      cases h
      rw [List.length_cons] at inside
      have short : runLength (fun x => x != '\n' && x.toNat != 0) (g ++ s :: rest) ≤ g.length := by omega
      have same := runLength_before short rest'
      rw [List.cons_append, scan, same]
  · rename_i tail split
    cases g with
    | nil => exact (plain.2.2.1 (List.cons.inj split).1).elim
    | cons d g =>
      rw [List.cons_append, List.cons.injEq] at split
      obtain ⟨rfl, rfl⟩ := split
      split at h
      · rename_i m found
        cases h
        rw [List.length_cons] at inside
        have same := (isMeasured_blockComment found).before (by omega) (s :: rest')
        rw [List.cons_append, scan, same]
      · cases h
        exact (genuine rfl).elim
  · rename_i tail split
    rcases g with _ | ⟨d, _ | ⟨e, g⟩⟩
    · exact (plain.2.2.2 (List.cons.inj split).1).elim
    · exact (plain.2.2.2 (List.cons.inj (List.cons.inj split).2).1).elim
    · rw [List.cons_append, List.cons_append, List.cons.injEq, List.cons.injEq] at split
      obtain ⟨rfl, rfl, rfl⟩ := split
      split at h
      · rename_i m found
        cases h
        rw [List.length_cons, List.length_cons] at inside
        have same := (isMeasured_textBlock found).before (by omega) (s :: rest')
        rw [List.cons_append, List.cons_append, scan, same]
      · cases h
        exact (genuine rfl).elim
  · rename_i single
    split at h
    · rename_i m found
      cases h
      have same := (isMeasured_string found).before inside (s :: rest')
      rw [scan, same]
      intro tail split
      rcases g with _ | ⟨d, _ | ⟨e, g⟩⟩
      · exact plain.2.2.2 (List.cons.inj split).1
      · exact plain.2.2.2 (List.cons.inj (List.cons.inj split).2).1
      · rw [List.cons_append, List.cons_append, List.cons.injEq, List.cons.injEq] at split
        exact single (g ++ s :: rest) (by rw [split.1, split.2.1]; rfl)
    · cases h
      exact (genuine rfl).elim
  · split at h
    · rename_i m found
      cases h
      have same := (isMeasured_character found).before inside (s :: rest')
      rw [scan, same]
    · cases h
      exact (genuine rfl).elim
  · rename_i x tail split
    cases g with
    | nil =>
      obtain ⟨rfl, rfl⟩ := List.cons.inj split
      have other : (s == 'x' || s == 'X') = false ∧ (s == 'b' || s == 'B') = false := by
        rw [isCut, Bool.or_eq_true, beq_iff_eq, beq_iff_eq] at cut
        rcases cut with rfl | rfl <;> decide
      rw [other.1, other.2, if_neg Bool.false_ne_true, if_neg Bool.false_ne_true, ← number] at h
      rw [List.nil_append, scan, other.1, other.2, if_neg Bool.false_ne_true, if_neg Bool.false_ne_true]
      exact h
    | cons d g =>
      rw [List.cons_append, List.cons.injEq] at split
      obtain ⟨rfl, rfl⟩ := split
      have other : (s == '0' || s == '1' || s == '_') = false ∧ ['l', 'L'].contains s = false := by
        rw [isCut, Bool.or_eq_true, beq_iff_eq, beq_iff_eq] at cut
        rcases cut with rfl | rfl <;> decide
      have short := runLength_le (fun d => d == '0' || d == '1' || d == '_') g
      rw [← number, scanHex_cut cut, runLength_cut other.1] at h
      rw [List.cons_append, scan, scanHex_cut cut, runLength_cut other.1]
      dsimp only at h ⊢
      rw [drop_cut short, suffixLength_cut other.2] at h ⊢
      exact h
  · rename_i x tail split
    obtain ⟨y, tail', split', same⟩ : ∃ y tail', g ++ s :: rest' = y :: tail' ∧ y = x := by
      cases g with
      | nil => exact ⟨s, rest', rfl, (List.cons.inj split).1⟩
      | cons d g => exact ⟨d, g ++ s :: rest', rfl, (List.cons.inj split).1⟩
    rw [← number, ← mark, ← same] at h
    rw [split', scan, ← split']
    exact h
  · rename_i quote apostrophe line block _ zero point
    have begins {d : Char} {tail : List Char} (other : s ≠ d) (split : g ++ s :: rest' = d :: tail) :
        ∃ tail', g ++ s :: rest = d :: tail' := by
      cases g with
      | nil => exact (other (List.cons.inj split).1).elim
      | cons e g => exact ⟨g ++ s :: rest, by rw [(List.cons.inj split).1]; rfl⟩
    obtain ⟨x, tail, split⟩ : ∃ x tail, g ++ s :: rest = x :: tail := by
      cases g with
      | nil => exact ⟨_, _, rfl⟩
      | cons d g => exact ⟨_, _, rfl⟩
    rw [← number, ← mark, runLength_cut plain.1] at h
    rw [scan, runLength_cut plain.1]
    · exact h
    · exact quote
    · exact apostrophe
    · intro more slash begin'
      obtain ⟨tail', same⟩ := begins plain.2.1 begin'
      exact line tail' slash same
    · intro more slash begin'
      obtain ⟨tail', same⟩ := begins plain.2.2.1 begin'
      exact block tail' slash same
    · exact fun _ same _ => quote same
    · exact fun _ _ same _ => zero x tail same split
    · exact fun _ _ same _ => point x tail same split

/-! ### Tokens -/

variable {offset place : Nat} {comments : List Node} {tokens : List Token}

/-- The tokens that have been read come first. -/
theorem readTokens_before (offset : Nat) (comments : List Node) (tokens before : List Token) (cs : List Char) :
    readTokens offset comments (tokens ++ before) cs =
      ⟨before.reverse ++ (readTokens offset comments tokens cs).tokens,
        (readTokens offset comments tokens cs).trailing⟩ := by
  fun_induction readTokens offset comments tokens cs with
  | case1 offset comments tokens => rw [readTokens, List.reverse_append]
  | case2 offset comments tokens c cs space ih =>
    rw [readTokens_space space]
    exact ih
  | case3 =>
    rename_i offset comments tokens c cs space n taken stop k found ih
    rw [readTokens_comment (Bool.eq_false_iff.2 space) found]
    exact ih
  | case4 =>
    rename_i offset comments tokens c cs space n taken stop k found ih
    rw [List.unattach_reverse, List.unattach_attach] at ih
    rw [readTokens_token (Bool.eq_false_iff.2 space) found]
    exact ih

/-- The tokens of a text, without those that have been read before. -/
theorem readTokens_eq (offset : Nat) (comments : List Node) (tokens : List Token) (cs : List Char) :
    readTokens offset comments tokens cs =
      ⟨tokens.reverse ++ (readTokens offset comments [] cs).tokens,
        (readTokens offset comments [] cs).trailing⟩ :=
  readTokens_before offset comments [] tokens cs

/-- A comment before a token or after the last one. -/
def TokenList.Notes (l : TokenList) (m : Node) : Prop :=
  m ∈ l.trailing ∨ ∃ t ∈ l.tokens, m ∈ t.extras

theorem notes_readTokens {m : Node} (h : m ∈ comments) : (readTokens offset comments tokens cs).Notes m := by
  fun_induction readTokens offset comments tokens cs with
  | case1 offset comments tokens => exact .inl (List.mem_reverse.2 h)
  | case2 offset comments tokens c cs space ih => exact ih h
  | case3 =>
    rename_i ih
    exact ih (List.mem_cons_of_mem _ h)
  | case4 =>
    rename_i offset comments tokens c cs space n taken stop k found ih
    rw [readTokens_eq]
    refine .inr ⟨_, List.mem_append_left _ (List.mem_reverse.2 List.mem_cons_self), ?_⟩
    exact List.mem_reverse.2 h

/-- No token and no comment that begins before a place goes on beyond it, and none of these tokens is
stray. -/
structure TokenList.Apart (l : TokenList) (place : Nat) : Prop where
  token : ∀ t ∈ l.tokens, t.start < place → t.stop ≤ place ∧ t.kind ≠ .stray
  comment : ∀ m, l.Notes m → m.start < place → m.stop ≤ place

theorem byteLength_lt (f more : List Char) : byteLength f < byteLength (f ++ s :: more) := by
  have positive := byteLength_pos s more
  rw [byteLength_append]
  omega

/-- A lexeme that ends at a place or before it takes no character after the place. -/
theorem length_le_of_byteLength_le (h : byteLength (c :: (g ++ s :: rest).take n) ≤ byteLength (c :: g)) :
    n ≤ g.length := by
  rw [← Nat.not_lt]
  intro long
  have whole : (g ++ s :: rest).take n = g ++ s :: (rest.take (n - (g.length + 1))) := by
    rw [List.take_append, List.take_of_length_le (Nat.le_of_lt long),
      show n - g.length = (n - (g.length + 1)) + 1 by omega, List.take_succ_cons]
  have more := byteLength_lt (s := s) (c :: g) (rest.take (n - (g.length + 1)))
  rw [whole] at h
  rw [List.cons_append] at more
  omega

/-- Before a line feed or a semicolon that lies in no lexeme before it, the same is read whatever comes
after it. -/
theorem exists_readTokens_cut (cut : isCut s = true)
    (apart : (readTokens offset comments tokens (g ++ s :: rest)).Apart (offset + byteLength g)) :
    ∃ comments' tokens', ∀ rest', readTokens offset comments tokens (g ++ s :: rest') =
      readTokens (offset + byteLength g) comments' tokens' (s :: rest') := by
  induction length : g.length using Nat.strong_induction_on generalizing g offset comments tokens with
  | _ size ih =>
    cases g with
    | nil => exact ⟨comments, tokens, fun rest' => rfl⟩
    | cons c g =>
      rw [List.length_cons] at length
      rw [List.cons_append] at apart
      cases space : isSpace c with
      | true =>
        rw [readTokens_space space, byteLength_cons, ← Nat.add_assoc] at apart
        obtain ⟨comments', tokens', same⟩ := ih g.length (by omega) apart rfl
        refine ⟨comments', tokens', fun rest' => ?_⟩
        rw [List.cons_append, readTokens_space space, same, byteLength_cons, Nat.add_assoc]
      | false =>
        cases found : scan c (g ++ s :: rest) with
        | mk lexeme n =>
          have positive := byteLength_pos c g
          -- what has been read so far does not go on beyond the place, so neither does this lexeme
          have inside (short : offset + byteLength (c :: (g ++ s :: rest).take n) ≤
              offset + byteLength (c :: g)) : n ≤ g.length ∧
                (∀ rest', (g ++ s :: rest').take n = g.take n) ∧
                (∀ rest', (g ++ s :: rest').drop n = g.drop n ++ s :: rest') ∧
                offset + byteLength (c :: g) =
                  offset + byteLength (c :: g.take n) + byteLength (g.drop n) := by
            have n_le := length_le_of_byteLength_le (Nat.le_of_add_le_add_left short)
            refine ⟨n_le, fun rest' => List.take_append_of_le_length n_le, fun rest' => drop_cut n_le rest', ?_⟩
            rw [Nat.add_assoc, ← byteLength_append, List.cons_append, List.take_append_drop]
          cases lexeme with
          | comment k =>
            rw [readTokens_comment space found] at apart
            obtain ⟨n_le, taken, dropped, width⟩ := inside
              (apart.comment _ (notes_readTokens List.mem_cons_self) (by rw [Node.start]; omega))
            rw [taken, dropped, width] at apart
            obtain ⟨comments', tokens', same⟩ := ih (g.drop n).length (by rw [List.length_drop]; omega) apart rfl
            refine ⟨comments', tokens', fun rest' => ?_⟩
            rw [List.cons_append, readTokens_comment space (scan_cut cut (by simp) found n_le rest'),
              taken, dropped, same, width]
          | token k =>
            rw [readTokens_token space found] at apart
            have own := apart.token _ (by
              rw [readTokens_eq]
              exact List.mem_append_left _ (List.mem_reverse.2 List.mem_cons_self)) (by dsimp only; omega)
            obtain ⟨n_le, taken, dropped, width⟩ := inside own.1
            rw [taken, dropped, width] at apart
            obtain ⟨comments', tokens', same⟩ := ih (g.drop n).length (by rw [List.length_drop]; omega) apart rfl
            refine ⟨comments', tokens', fun rest' => ?_⟩
            have genuine : Lexeme.token k ≠ .token .stray := fun stray => own.2 (by cases stray; rfl)
            rw [List.cons_append, readTokens_token space (scan_cut cut genuine found n_le rest'),
              taken, dropped, same, width]

end MonoTap.Java

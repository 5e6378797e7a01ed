import MonoTap.Proofs.Utf8

/-!
# Carriage returns

A text whose lines end in line feeds, and the same text with a carriage return before each of them. An
offset moves by the carriage returns put in before it. Whatever is read off one text at some offsets is
read off the other one at the moved offsets: the same lines with the same indentation, and between two
offsets the same text, again with a carriage return before each line feed.
-/

set_option autoImplicit false

namespace MonoTap.Text

/-- The characters with a carriage return put before each line feed. -/
def crlf (cs : List Char) : List Char :=
  cs.flatMap fun c => if c = '\n' then ['\r', '\n'] else [c]

/-- The bytes with a carriage return put before each line feed. -/
def crlfBytes (bs : List UInt8) : List UInt8 :=
  bs.flatMap fun b => if b = 10 then [13, 10] else [b]

/-- The text with a carriage return put before each line feed. -/
def crlfText (s : String) : String :=
  String.ofList (crlf s.toList)

/-- The source with a carriage return put before each line feed. -/
def Source.crlf (s : Source) : Source :=
  .ofBytes (crlfBytes s.toBytes)

/-- Where an offset lies once a carriage return has been put before each line feed. -/
def crlfOffset (bs : List UInt8) (offset : Nat) : Nat :=
  offset + (bs.take offset).count 10

/-! ### Characters -/

@[simp] theorem crlf_nil : crlf [] = [] := rfl

theorem crlf_cons_lineFeed (cs : List Char) : crlf ('\n' :: cs) = '\r' :: '\n' :: crlf cs := rfl

theorem crlf_cons {c : Char} (h : c ≠ '\n') (cs : List Char) : crlf (c :: cs) = c :: crlf cs := by
  rw [crlf, List.flatMap_cons, if_neg h]
  rfl

theorem crlf_append (cs ds : List Char) : crlf (cs ++ ds) = crlf cs ++ crlf ds :=
  List.flatMap_append

theorem crlf_of_not_mem {cs : List Char} (h : '\n' ∉ cs) : crlf cs = cs := by
  induction cs with
  | nil => rfl
  | cons c cs ih =>
    rw [List.mem_cons, not_or] at h
    rw [crlf_cons (Ne.symm h.1), ih h.2]

theorem lineFeed_mem_crlf {cs : List Char} : '\n' ∈ crlf cs ↔ '\n' ∈ cs := by
  rw [crlf, List.mem_flatMap]
  constructor
  · rintro ⟨c, hc, mem⟩
    split at mem
    · rename_i feed
      exact feed ▸ hc
    · rw [List.mem_singleton] at mem
      exact mem ▸ hc
  · intro mem
    exact ⟨'\n', mem, by decide⟩

/-- The carriage returns put in can be told from those that were there: they stand before line feeds. -/
theorem crlf_injective {cs ds : List Char} (h : crlf cs = crlf ds) : cs = ds := by
  induction cs generalizing ds with
  | nil =>
    cases ds with
    | nil => rfl
    | cons d ds =>
      by_cases feed : d = '\n'
      · rw [feed, crlf_cons_lineFeed] at h
        cases h
      · rw [crlf_cons feed] at h
        cases h
  | cons c cs ih =>
    cases ds with
    | nil =>
      by_cases feed : c = '\n'
      · rw [feed, crlf_cons_lineFeed] at h
        cases h
      · rw [crlf_cons feed] at h
        cases h
    | cons d ds =>
      -- no text begins with a line feed once carriage returns are put in
      have opens (l : List Char) : (crlf l).head? ≠ some '\n' := by
        cases l with
        | nil => exact nofun
        | cons e l =>
          by_cases feed : e = '\n'
          · rw [feed, crlf_cons_lineFeed]
            exact fun same => by cases same
          · rw [crlf_cons feed, List.head?_cons]
            exact fun same => feed (Option.some.inj same)
      by_cases first : c = '\n' <;> by_cases second : d = '\n'
      · subst first second
        rw [crlf_cons_lineFeed, crlf_cons_lineFeed] at h
        rw [ih (List.cons.inj (List.cons.inj h).2).2]
      · subst first
        rw [crlf_cons_lineFeed, crlf_cons second] at h
        have := opens ds
        rw [← (List.cons.inj h).2] at this
        exact (this rfl).elim
      · subst second
        rw [crlf_cons_lineFeed, crlf_cons first] at h
        have := opens cs
        rw [(List.cons.inj h).2] at this
        exact (this rfl).elim
      · rw [crlf_cons first, crlf_cons second] at h
        obtain ⟨rfl, rest⟩ := List.cons.inj h
        rw [ih rest]

/-! ### Texts -/

@[simp] theorem toList_crlfText (s : String) : (crlfText s).toList = crlf s.toList := by
  rw [crlfText, String.toList_ofList]

theorem crlfText_injective {s t : String} (h : crlfText s = crlfText t) : s = t := by
  have same := congrArg String.toList h
  rw [toList_crlfText, toList_crlfText] at same
  rw [← String.ofList_toList (s := s), crlf_injective same, String.ofList_toList]

theorem crlfText_inj {s t : String} : crlfText s = crlfText t ↔ s = t :=
  ⟨crlfText_injective, congrArg crlfText⟩

theorem crlfText_append (s t : String) : crlfText (s ++ t) = crlfText s ++ crlfText t := by
  rw [crlfText, String.toList_append, crlf_append, String.ofList_append]
  rfl

theorem crlfText_of_not_mem {s : String} (h : '\n' ∉ s.toList) : crlfText s = s := by
  rw [crlfText, crlf_of_not_mem h, String.ofList_toList]

/-- A text in one line is met in both texts or in neither. -/
theorem crlfText_eq_iff {s t : String} (h : '\n' ∉ t.toList) : crlfText s = t ↔ s = t := by
  conv => lhs; rw [← crlfText_of_not_mem h]
  exact crlfText_inj

theorem beq_crlfText {word : String} (h : '\n' ∉ word.toList) (t : String) :
    (crlfText t == word) = (t == word) := by
  rw [Bool.eq_iff_iff, beq_iff_eq, beq_iff_eq, crlfText_eq_iff h]

theorem mem_crlfText {words : List String} (h : ∀ word ∈ words, '\n' ∉ word.toList) {t : String} :
    crlfText t ∈ words ↔ t ∈ words := by
  constructor
  · intro mem
    have same := (crlfText_eq_iff (s := t) (h _ mem)).1 rfl
    rwa [← same] at mem
  · intro mem
    rwa [crlfText_of_not_mem (h t mem)]

/-! ### Joined texts -/

theorem crlfText_join (parts : List String) :
    String.join (parts.map crlfText) = crlfText (String.join parts) := by
  induction parts with
  | nil => rfl
  | cons part parts ih =>
    rw [List.map_cons, String.join_cons, ih, String.join_cons, crlfText_append]

theorem intercalate_crlf (separator : List Char) (parts : List (List Char)) :
    (crlf separator).intercalate (parts.map crlf) = crlf (separator.intercalate parts) := by
  induction parts with
  | nil => rfl
  | cons part parts ih =>
    cases parts with
    | nil => simp [List.intercalate]
    | cons next parts =>
      have split (separator a b : List Char) (more : List (List Char)) :
          separator.intercalate (a :: b :: more) =
            a ++ (separator ++ separator.intercalate (b :: more)) := by
        simp [List.intercalate]
      rw [List.map_cons] at ih
      rw [List.map_cons, List.map_cons, split, ih, split, crlf_append, crlf_append]

theorem crlfText_intercalate (separator : String) (parts : List String) :
    (crlfText separator).intercalate (parts.map crlfText) =
      crlfText (separator.intercalate parts) := by
  apply String.toList_inj.1
  rw [String.toList_intercalate, toList_crlfText, toList_crlfText, String.toList_intercalate,
    ← intercalate_crlf, List.map_map, List.map_map]
  exact congrArg _ (List.map_congr_left fun part _ => toList_crlfText part)

/-! ### Bytes -/

theorem crlfBytes_append (as bs : List UInt8) : crlfBytes (as ++ bs) = crlfBytes as ++ crlfBytes bs :=
  List.flatMap_append

theorem crlfBytes_cons_lineFeed (bs : List UInt8) :
    crlfBytes (10 :: bs) = 13 :: 10 :: crlfBytes bs := rfl

theorem crlfBytes_cons {b : UInt8} (h : b ≠ 10) (bs : List UInt8) :
    crlfBytes (b :: bs) = b :: crlfBytes bs := by
  rw [crlfBytes, List.flatMap_cons, if_neg h]
  rfl

theorem crlfBytes_of_not_mem {bs : List UInt8} (h : (10 : UInt8) ∉ bs) : crlfBytes bs = bs := by
  induction bs with
  | nil => rfl
  | cons b bs ih =>
    rw [List.mem_cons, not_or] at h
    rw [crlfBytes_cons (Ne.symm h.1), ih h.2]

theorem length_crlfBytes (bs : List UInt8) : (crlfBytes bs).length = bs.length + bs.count 10 := by
  induction bs with
  | nil => rfl
  | cons b bs ih =>
    by_cases feed : b = 10
    · subst feed
      rw [crlfBytes_cons_lineFeed, List.length_cons, List.length_cons, ih, List.length_cons,
        List.count_cons_self]
      omega
    · rw [crlfBytes_cons feed, List.length_cons, ih, List.length_cons,
        List.count_cons_of_ne feed]
      omega

theorem count_crlfBytes (bs : List UInt8) : (crlfBytes bs).count 10 = bs.count 10 := by
  induction bs with
  | nil => rfl
  | cons b bs ih =>
    by_cases feed : b = 10
    · subst feed
      rw [crlfBytes_cons_lineFeed, List.count_cons_of_ne (by decide), List.count_cons_self, ih,
        List.count_cons_self]
    · rw [crlfBytes_cons feed, List.count_cons_of_ne feed, ih, List.count_cons_of_ne feed]

theorem encodeChars_crlf (cs : List Char) : encodeChars (crlf cs) = crlfBytes (encodeChars cs) := by
  induction cs with
  | nil => rfl
  | cons c cs ih =>
    rw [encodeChars_cons, crlfBytes_append]
    by_cases feed : c = '\n'
    · subst feed
      rw [crlf_cons_lineFeed, encodeChars_cons, encodeChars_cons, ih, ← List.append_assoc]
      congr 1
    · have plain : (10 : UInt8) ∉ String.utf8EncodeChar c := fun mem => feed (eq_lineFeed_of_mem mem)
      rw [crlf_cons feed, encodeChars_cons, ih, crlfBytes_of_not_mem plain]

theorem encode_crlfText (s : String) : encode (crlfText s) = crlfBytes (encode s) := by
  rw [crlfText, encode_ofList, encodeChars_crlf, encode_eq]

/-! ### Reading bytes -/

/-- A reading of bytes with a carriage return put before each line feed. -/
def Reading.crlf : Reading → Reading
  | .char c rest => .char c (crlfBytes rest)
  | .fault cause width rest => .fault cause width (crlfBytes rest)

/-- Neither a line feed nor a carriage return goes on with a character. -/
theorem readTail_crlfBytes (n bits width : Nat) (bs : List UInt8) :
    readTail n bits width (crlfBytes bs) = (readTail n bits width bs).crlf := by
  induction n generalizing bits width bs with
  | zero => rfl
  | succ n ih =>
    cases bs with
    | nil => rfl
    | cons b bs =>
      by_cases feed : b = 10
      · subst feed
        rfl
      · rw [crlfBytes_cons feed, readTail, readTail]
        cases continuation? b with
        | none =>
          show Reading.fault _ _ _ = Reading.fault _ _ _
          rw [crlfBytes_cons feed]
        | some v => exact ih _ _ _

theorem readSecond_crlfBytes {low : Nat} (printed : 13 < low) (n bits high : Nat)
    (bs : List UInt8) :
    readSecond n bits low high (crlfBytes bs) = (readSecond n bits low high bs).crlf := by
  cases bs with
  | nil => rfl
  | cons b bs =>
    by_cases feed : b = 10
    · have low13 : ¬ low ≤ (13 : UInt8).toNat := by
        rw [show (13 : UInt8).toNat = 13 from rfl]
        omega
      have low10 : ¬ low ≤ (10 : UInt8).toNat := by
        rw [show (10 : UInt8).toNat = 10 from rfl]
        omega
      subst feed
      rw [crlfBytes_cons_lineFeed, readSecond, readSecond]
      simp only [low13, low10, decide_false, Bool.false_and, Bool.false_eq_true, if_false]
      rfl
    · rw [crlfBytes_cons feed, readSecond, readSecond]
      split
      · exact readTail_crlfBytes _ _ _ _
      · show Reading.fault _ _ _ = Reading.fault _ _ _
        rw [crlfBytes_cons feed]

theorem readChar_crlfBytes (b : UInt8) (bs : List UInt8) :
    readChar b (crlfBytes bs) = (readChar b bs).crlf := by
  simp only [readChar]
  have second (n bits high : Nat) {low : Nat} (printed : 13 < low) :
      readSecond n bits low high (crlfBytes bs) = (readSecond n bits low high bs).crlf :=
    readSecond_crlfBytes printed n bits high bs
  split
  · rfl
  · split
    · rfl
    · split
      · exact second _ _ _ (by omega)
      · split
        · exact second _ _ _ (by split <;> omega)
        · split
          · exact second _ _ _ (by split <;> omega)
          · rfl

/-- Only the number of a line feed gives a line feed. -/
theorem ofNat_ne_lineFeed {v : Nat} (h : v ≠ 10) : Char.ofNat v ≠ '\n' := by
  intro same
  by_cases valid : v.isValidChar
  · have value := congrArg Char.toNat same
    rw [Char.ofNat, dif_pos valid] at value
    exact h value
  · rw [Char.ofNat, dif_neg valid] at same
    cases same

theorem exists_of_readTail {n bits width : Nat} {bs rest : List UInt8} {c : Char}
    (h : readTail n bits width bs = .char c rest) : ∃ v, bits ≤ v ∧ c = Char.ofNat v := by
  induction n generalizing bits width bs with
  | zero =>
    cases h
    exact ⟨bits, Nat.le_refl _, rfl⟩
  | succ n ih =>
    cases bs with
    | nil => cases h
    | cons b bs =>
      rw [readTail] at h
      split at h
      · obtain ⟨v, larger, same⟩ := ih h
        exact ⟨v, by omega, same⟩
      · cases h

theorem ne_lineFeed_of_readSecond {n bits low high : Nat} {bs rest : List UInt8} {c : Char}
    (h : readSecond n bits low high bs = .char c rest) (large : 10 < bits * 64 + (low - 0x80)) :
    c ≠ '\n' := by
  cases bs with
  | nil => cases h
  | cons b bs =>
    rw [readSecond] at h
    split at h
    · rename_i bounds
      rw [Bool.and_eq_true, decide_eq_true_eq] at bounds
      obtain ⟨v, larger, rfl⟩ := exists_of_readTail h
      exact ofNat_ne_lineFeed (by omega)
    · cases h

/-- Only the byte of a line feed reads as one. -/
theorem ne_lineFeed_of_readChar {b : UInt8} {bs rest : List UInt8} {c : Char}
    (h : readChar b bs = .char c rest) (other : b ≠ 10) : c ≠ '\n' := by
  simp only [readChar] at h
  split at h
  · cases h
    refine ofNat_ne_lineFeed fun same => other ?_
    exact UInt8.toNat_inj.1 same
  · split at h
    · cases h
    · split at h
      · exact ne_lineFeed_of_readSecond h (by omega)
      · split at h
        · refine ne_lineFeed_of_readSecond h ?_
          split
          · omega
          · rename_i first
            have : b.toNat ≠ 0xE0 := fun same => first (beq_iff_eq.2 same)
            omega
        · split at h
          · refine ne_lineFeed_of_readSecond h ?_
            split
            · omega
            · rename_i first
              have : b.toNat ≠ 0xF0 := fun same => first (beq_iff_eq.2 same)
              omega
          · cases h

theorem decodeLossy_cons (b : UInt8) (bs : List UInt8) :
    decodeLossy (b :: bs) = match readChar b bs with
      | .char c rest => c :: decodeLossy rest
      | .fault _ _ rest => replacement :: decodeLossy rest := by
  rw [decodeLossy]
  split <;> rename_i found <;> rw [found]

/-- Carriage returns can be put in before or after reading. -/
theorem decodeLossy_crlfBytes (bs : List UInt8) :
    decodeLossy (crlfBytes bs) = crlf (decodeLossy bs) := by
  generalize length : bs.length = n
  induction n using Nat.strongRecOn generalizing bs with
  | ind n ih =>
    cases bs with
    | nil =>
      rw [show crlfBytes [] = [] from rfl, decodeLossy]
      rfl
    | cons b bs =>
      have smaller := length_rest_readChar b bs
      by_cases feed : b = 10
      · subst feed
        have same := ih bs.length (by rw [← length, List.length_cons]; omega) bs rfl
        rw [crlfBytes_cons_lineFeed, decodeLossy_cons, decodeLossy_cons 10 bs]
        show '\r' :: decodeLossy (10 :: crlfBytes bs) = crlf ('\n' :: decodeLossy bs)
        rw [decodeLossy_cons, crlf_cons_lineFeed, ← same]
        rfl
      · rw [crlfBytes_cons feed, decodeLossy_cons, readChar_crlfBytes, decodeLossy_cons]
        cases found : readChar b bs with
        | char c rest =>
          rw [found] at smaller
          have same := ih rest.length
            (by rw [← length, List.length_cons]; exact Nat.lt_succ_of_le smaller) rest rfl
          show c :: decodeLossy (crlfBytes rest) = crlf (c :: decodeLossy rest)
          rw [crlf_cons (ne_lineFeed_of_readChar found feed), same]
        | fault cause width rest =>
          rw [found] at smaller
          have same := ih rest.length
            (by rw [← length, List.length_cons]; exact Nat.lt_succ_of_le smaller) rest rfl
          show replacement :: decodeLossy (crlfBytes rest) = crlf (replacement :: decodeLossy rest)
          rw [crlf_cons (by decide), same]

/-- A reading of bytes that a carriage return follows. -/
def Reading.Returned (before after : Reading) : Prop :=
  match before, after with
  | .char c rest, .char d rest' => d = c ∧ rest' = rest ++ [13]
  | .fault _ _ rest, .fault _ _ rest' => rest' = rest ++ [13]
  | _, _ => False

theorem returned_readTail (n bits width : Nat) (bs : List UInt8) :
    (readTail n bits width bs).Returned (readTail n bits width (bs ++ [13])) := by
  induction n generalizing bits width bs with
  | zero => exact ⟨rfl, rfl⟩
  | succ n ih =>
    cases bs with
    | nil => exact rfl
    | cons b bs =>
      rw [List.cons_append, readTail, readTail]
      cases continuation? b with
      | none => exact rfl
      | some v => exact ih _ _ _

theorem returned_readSecond {low : Nat} (printed : 13 < low) (n bits high : Nat)
    (bs : List UInt8) :
    (readSecond n bits low high bs).Returned (readSecond n bits low high (bs ++ [13])) := by
  cases bs with
  | nil =>
    have low13 : ¬ low ≤ (13 : UInt8).toNat := by
      rw [show (13 : UInt8).toNat = 13 from rfl]
      omega
    rw [List.nil_append, readSecond, readSecond]
    simp only [low13, decide_false, Bool.false_and, Bool.false_eq_true, if_false]
    exact rfl
  | cons b bs =>
    rw [List.cons_append, readSecond, readSecond]
    split
    · exact returned_readTail _ _ _ _
    · exact rfl

theorem returned_readChar (b : UInt8) (bs : List UInt8) :
    (readChar b bs).Returned (readChar b (bs ++ [13])) := by
  simp only [readChar]
  have second (n bits high : Nat) {low : Nat} (printed : 13 < low) :
      (readSecond n bits low high bs).Returned (readSecond n bits low high (bs ++ [13])) :=
    returned_readSecond printed n bits high bs
  split
  · exact ⟨rfl, rfl⟩
  · split
    · exact rfl
    · split
      · exact second _ _ _ (by omega)
      · split
        · exact second _ _ _ (by split <;> omega)
        · split
          · exact second _ _ _ (by split <;> omega)
          · exact rfl

/-- A carriage return after some bytes is read by itself. -/
theorem decodeLossy_concat (bs : List UInt8) :
    decodeLossy (bs ++ [13]) = decodeLossy bs ++ ['\r'] := by
  generalize length : bs.length = n
  induction n using Nat.strongRecOn generalizing bs with
  | ind n ih =>
    cases bs with
    | nil =>
      rw [List.nil_append, decodeLossy_cons, decodeLossy]
      show '\r' :: decodeLossy [] = _
      rw [decodeLossy]
      rfl
    | cons b bs =>
      have smaller := length_rest_readChar b bs
      have returned := returned_readChar b bs
      rw [List.cons_append, decodeLossy_cons, decodeLossy_cons b bs]
      cases found : readChar b bs <;> cases found' : readChar b (bs ++ [13]) <;>
        rw [found, found'] at returned
      · rename_i c rest d rest'
        obtain ⟨rfl, rfl⟩ := returned
        rw [found] at smaller
        have same := ih rest.length
          (by rw [← length, List.length_cons]; exact Nat.lt_succ_of_le smaller) rest rfl
        show d :: decodeLossy (rest ++ [13]) = d :: decodeLossy rest ++ _
        rw [same]
        rfl
      · exact returned.elim
      · exact returned.elim
      · rename_i cause width rest cause' width' rest'
        obtain rfl := returned
        rw [found] at smaller
        have same := ih rest.length
          (by rw [← length, List.length_cons]; exact Nat.lt_succ_of_le smaller) rest rfl
        show replacement :: decodeLossy (rest ++ [13]) = replacement :: decodeLossy rest ++ _
        rw [same]
        rfl

/-- Lines that end in line feeds end in both once carriage returns are put in. -/
theorem newlineOf_crlfBytes {bs : List UInt8} (h : (10 : UInt8) ∈ bs) :
    newlineOf (crlfBytes bs) = "\r\n" := by
  obtain ⟨front, back, rfl, plain⟩ := List.eq_append_cons_of_mem h
  have first : (crlfBytes (front ++ 10 :: back)).takeWhile (· != 10) = front ++ [13] := by
    have passes : ∀ b ∈ front ++ [13], (b != (10 : UInt8)) = true := by
      intro b hb
      rw [bne_iff_ne]
      rintro rfl
      rcases List.mem_append.1 hb with hb | hb
      · exact plain hb
      · cases List.mem_singleton.1 hb
    rw [crlfBytes_append, crlfBytes_of_not_mem plain, crlfBytes_cons_lineFeed,
      show front ++ 13 :: 10 :: crlfBytes back = (front ++ [13]) ++ 10 :: crlfBytes back by simp,
      List.takeWhile_append_of_pos passes, List.takeWhile_cons_of_neg (by decide), List.append_nil]
  have there : (crlfBytes (front ++ 10 :: back)).contains 10 = true := by
    rw [List.contains_iff_mem, crlfBytes_append, crlfBytes_cons_lineFeed]
    exact List.mem_append_right _ (List.mem_cons_of_mem _ List.mem_cons_self)
  rw [newlineOf, first, List.getLast?_concat]
  show (if _ then _ else _) = _
  rw [there, if_pos rfl]

theorem newlineOf_of_not_mem {bs : List UInt8} (h : (13 : UInt8) ∉ bs) : newlineOf bs = "\n" := by
  rw [newlineOf]
  split
  · rename_i found
    exact (h ((List.takeWhile_prefix _).subset (List.mem_of_getLast? found))).elim
  · rfl

/-! ### Offsets -/

section

variable {bs : List UInt8} {a b : Nat}

theorem crlfOffset_zero (bs : List UInt8) : crlfOffset bs 0 = 0 := rfl

theorem crlfOffset_le_iff : crlfOffset bs a ≤ crlfOffset bs b ↔ a ≤ b := by
  have mono {c d : Nat} (h : c ≤ d) : (bs.take c).count 10 ≤ (bs.take d).count 10 :=
    (List.take_sublist_take_left h).count_le 10
  unfold crlfOffset
  constructor
  · intro h
    refine Nat.le_of_not_lt fun larger => ?_
    have := mono (Nat.le_of_lt larger)
    omega
  · intro h
    have := mono h
    omega

theorem crlfOffset_lt_iff : crlfOffset bs a < crlfOffset bs b ↔ a < b := by
  rw [← Nat.not_le, ← Nat.not_le, crlfOffset_le_iff]

theorem crlfOffset_inj : crlfOffset bs a = crlfOffset bs b ↔ a = b := by
  rw [Nat.le_antisymm_iff, Nat.le_antisymm_iff, crlfOffset_le_iff, crlfOffset_le_iff]

/-- An offset moves on by as much as there are bytes before it with the carriage returns. -/
theorem length_crlfBytes_take (h : a ≤ bs.length) :
    (crlfBytes (bs.take a)).length = crlfOffset bs a := by
  rw [length_crlfBytes, List.length_take, Nat.min_eq_left h, crlfOffset]

theorem length_crlfBytes_le (h : bs.length ≤ a) : (crlfBytes bs).length ≤ crlfOffset bs a := by
  rw [length_crlfBytes, crlfOffset, List.take_of_length_le h]
  omega

theorem crlfOffset_le_length (h : a ≤ bs.length) : crlfOffset bs a ≤ (crlfBytes bs).length := by
  have split := List.take_append_drop a bs
  have length := congrArg List.length (congrArg crlfBytes split)
  rw [crlfBytes_append, List.length_append, length_crlfBytes_take h] at length
  omega

theorem take_crlfBytes (bs : List UInt8) (a : Nat) :
    (crlfBytes bs).take (crlfOffset bs a) = crlfBytes (bs.take a) := by
  rcases Nat.le_total a bs.length with h | h
  · conv => lhs; arg 2; rw [← List.take_append_drop a bs]
    rw [crlfBytes_append, ← length_crlfBytes_take h, List.take_left]
  · rw [List.take_of_length_le (length_crlfBytes_le h), List.take_of_length_le h]

theorem drop_crlfBytes (bs : List UInt8) (a : Nat) :
    (crlfBytes bs).drop (crlfOffset bs a) = crlfBytes (bs.drop a) := by
  rcases Nat.le_total a bs.length with h | h
  · conv => lhs; arg 2; rw [← List.take_append_drop a bs]
    rw [crlfBytes_append, ← length_crlfBytes_take h, List.drop_left]
  · rw [List.drop_eq_nil_of_le (length_crlfBytes_le h), List.drop_eq_nil_of_le h]
    rfl

/-- Offsets counted from another place move alike. -/
theorem crlfOffset_drop (bs : List UInt8) (a b : Nat) :
    crlfOffset bs a + crlfOffset (bs.drop a) b = crlfOffset bs (a + b) := by
  rw [crlfOffset, crlfOffset, crlfOffset, List.take_add, List.count_append]
  omega

theorem take_drop_crlfBytes (bs : List UInt8) (a b : Nat) :
    ((crlfBytes bs).drop (crlfOffset bs a)).take (crlfOffset bs b - crlfOffset bs a) =
      crlfBytes ((bs.drop a).take (b - a)) := by
  rw [drop_crlfBytes]
  rcases Nat.le_total a b with h | h
  · have moved := crlfOffset_drop bs a (b - a)
    rw [Nat.add_sub_cancel' h] at moved
    rw [show crlfOffset bs b - crlfOffset bs a = crlfOffset (bs.drop a) (b - a) by omega,
      take_crlfBytes]
  · have before : crlfOffset bs b ≤ crlfOffset bs a := crlfOffset_le_iff.2 h
    rw [Nat.sub_eq_zero_of_le before, Nat.sub_eq_zero_of_le h]
    rfl

/-- At a line feed there is a carriage return now. -/
theorem take_drop_crlfBytes_succ (h : a ≤ b) (feed : bs[b]? = some 10) :
    ((crlfBytes bs).drop (crlfOffset bs a)).take (crlfOffset bs b + 1 - crlfOffset bs a) =
      crlfBytes ((bs.drop a).take (b - a)) ++ [13] := by
  have before : crlfOffset bs a ≤ crlfOffset bs b := crlfOffset_le_iff.2 h
  have split : crlfOffset bs b + 1 - crlfOffset bs a = (crlfOffset bs b - crlfOffset bs a) + 1 := by
    omega
  have there : ((crlfBytes bs).drop (crlfOffset bs a)).drop (crlfOffset bs b - crlfOffset bs a) =
      13 :: 10 :: crlfBytes (bs.drop (b + 1)) := by
    rw [List.drop_drop, Nat.add_sub_cancel' before, drop_crlfBytes]
    obtain ⟨inside, same⟩ := List.getElem?_eq_some_iff.1 feed
    rw [List.drop_eq_getElem_cons inside, same]
    rfl
  rw [split, List.take_add, take_drop_crlfBytes, there]
  rfl

end

/-- Where a part of a text that ends at `stop` ends once a carriage return has been put before each
line feed, and what it ends in: it may take in the carriage return before the line feed that follows it. -/
inductive Ends (bs : List UInt8) (stop : Nat) : Nat → String → Prop
  | here : Ends bs stop (crlfOffset bs stop) ""
  | behind (feed : bs[stop]? = some 10) : Ends bs stop (crlfOffset bs stop + 1) "\r"

theorem Ends.tail_eq {bs : List UInt8} {stop stop' : Nat} {tail : String}
    (h : Ends bs stop stop' tail) : tail = "" ∨ tail = "\r" := by
  cases h with
  | here => exact .inl rfl
  | behind => exact .inr rfl

theorem crlfOffset_succ {bs : List UInt8} {a : Nat} (feed : bs[a]? = some 10) :
    crlfOffset bs (a + 1) = crlfOffset bs a + 2 := by
  rw [crlfOffset, List.take_add_one, feed, List.count_append, crlfOffset]
  show a + 1 + (_ + 1) = _
  omega

theorem Ends.crlfOffset_le_iff {bs : List UInt8} {stop stop' a : Nat} {tail : String}
    (h : Ends bs stop stop' tail) : crlfOffset bs a ≤ stop' ↔ a ≤ stop := by
  cases h with
  | here => exact Text.crlfOffset_le_iff
  | behind feed =>
    have next := crlfOffset_succ feed
    constructor
    · intro h
      refine Nat.le_of_not_lt fun later => ?_
      have : crlfOffset bs (stop + 1) ≤ crlfOffset bs a := Text.crlfOffset_le_iff.2 later
      omega
    · intro h
      have : crlfOffset bs a ≤ crlfOffset bs stop := Text.crlfOffset_le_iff.2 h
      omega

/-- What does not begin at a line feed begins before such an end or not in either text. -/
theorem Ends.crlfOffset_lt_iff {bs : List UInt8} {stop stop' a : Nat} {tail : String}
    (h : Ends bs stop stop' tail) (other : bs[a]? ≠ some 10) :
    crlfOffset bs a < stop' ↔ a < stop := by
  cases h with
  | here => exact Text.crlfOffset_lt_iff
  | behind feed =>
    have apart : a ≠ stop := fun same => other (same ▸ feed)
    rw [Nat.lt_succ_iff, Text.crlfOffset_le_iff]
    omega

theorem Ends.le_length {bs : List UInt8} {stop stop' : Nat} {tail : String}
    (h : Ends bs stop stop' tail) (size : stop ≤ bs.length) : stop' ≤ (crlfBytes bs).length := by
  cases h with
  | here => exact crlfOffset_le_length size
  | behind feed =>
    have inside : stop + 1 ≤ bs.length := (List.getElem?_eq_some_iff.1 feed).1
    have := crlfOffset_le_length inside
    rw [crlfOffset_succ feed] at this
    omega

theorem Ends.take_drop {bs : List UInt8} {start stop stop' : Nat} {tail : String}
    (h : Ends bs stop stop' tail) (order : start ≤ stop) :
    ((crlfBytes bs).drop (crlfOffset bs start)).take (stop' - crlfOffset bs start) =
      crlfBytes ((bs.drop start).take (stop - start)) ++ encode tail := by
  cases h with
  | here => rw [take_drop_crlfBytes, show encode "" = [] from rfl, List.append_nil]
  | behind feed => exact take_drop_crlfBytes_succ order feed

theorem Ends.decodeLossy {bs : List UInt8} {stop stop' : Nat} {tail : String}
    (h : Ends bs stop stop' tail) (bytes : List UInt8) :
    Text.decodeLossy (bytes ++ encode tail) = Text.decodeLossy bytes ++ tail.toList := by
  cases h with
  | here => rw [show encode "" = [] from rfl, List.append_nil, String.toList_empty, List.append_nil]
  | behind => exact decodeLossy_concat bytes

/-! ### Sources -/

namespace Source

variable {s : Source} {a b : Nat}

theorem toBytes_crlf (s : Source) : s.crlf.toBytes = crlfBytes s.toBytes :=
  toBytes_ofBytes _

theorem ofString_crlfText (text : String) :
    ofString (crlfText text) = (ofString text).crlf := by
  have same : (ofString (crlfText text)).toBytes = (ofString text).crlf.toBytes := by
    rw [toBytes_crlf, toBytes_ofString, toBytes_ofString, encode_crlfText]
  cases h : ofString (crlfText text) with | mk bytes =>
  cases h' : (ofString text).crlf with | mk bytes' =>
  rw [h, h'] at same
  exact congrArg Source.mk (Array.toList_inj.1 same)

theorem length_toBytes (s : Source) : s.toBytes.length = s.size := rfl

/-- Where an offset of a source lies once a carriage return has been put before each line feed. -/
def moved (s : Source) (offset : Nat) : Nat :=
  crlfOffset s.toBytes offset

@[simp] theorem moved_le_iff : s.moved a ≤ s.moved b ↔ a ≤ b := crlfOffset_le_iff

@[simp] theorem moved_lt_iff : s.moved a < s.moved b ↔ a < b := crlfOffset_lt_iff

@[simp] theorem moved_inj : s.moved a = s.moved b ↔ a = b := crlfOffset_inj

@[simp] theorem moved_zero (s : Source) : s.moved 0 = 0 := rfl

theorem slice_crlf (s : Source) (a b : Nat) :
    s.crlf.slice (s.moved a) (s.moved b) = crlfBytes (s.slice a b) := by
  rw [slice_eq, slice_eq, toBytes_crlf]
  exact take_drop_crlfBytes s.toBytes a b

/-- Between two offsets the same text stands, with the carriage returns. -/
theorem textOf_crlf (s : Source) (a b : Nat) :
    s.crlf.textOf (s.moved a) (s.moved b) = crlfText (s.textOf a b) := by
  rw [textOf, slice_crlf, decodeLossy_crlfBytes, crlfText, textOf, String.toList_ofList]

/-- The same holds up to an end that may lie behind a carriage return. -/
theorem textOf_ends {b' : Nat} {tail : String} (h : Ends s.toBytes b b' tail) (order : a ≤ b) :
    s.crlf.textOf (s.moved a) b' = crlfText (s.textOf a b) ++ tail := by
  have slice : s.crlf.slice (s.moved a) b' = crlfBytes (s.slice a b) ++ encode tail := by
    rw [slice_eq, slice_eq, toBytes_crlf]
    exact h.take_drop order
  rw [textOf, slice, h.decodeLossy, decodeLossy_crlfBytes, String.ofList_append, crlfText, textOf,
    String.toList_ofList, String.ofList_toList]

/-- Whatever the two offsets are, at most a carriage return more stands there. -/
theorem exists_textOf_ends (s : Source) {b' : Nat} {tail : String}
    (h : Ends s.toBytes b b' tail) (a : Nat) :
    ∃ tail, s.crlf.textOf (s.moved a) b' = crlfText (s.textOf a b) ++ tail ∧
      (tail = "" ∨ tail = "\r") := by
  rcases Nat.lt_or_ge b a with before | order
  · have empty (t : Source) {c d : Nat} (order : d ≤ c) : t.textOf c d = "" := by
      rw [textOf, slice_eq, Nat.sub_eq_zero_of_le order, List.take_zero, Text.decodeLossy]
    have reversed : b' ≤ s.moved a := by
      refine Nat.le_of_lt (Nat.lt_of_not_le fun order => ?_)
      exact Nat.not_le_of_lt before (h.crlfOffset_le_iff.1 order)
    rw [empty s (Nat.le_of_lt before), empty s.crlf reversed]
    exact ⟨"", rfl, .inl rfl⟩
  · exact ⟨tail, textOf_ends h order, h.tail_eq⟩

theorem size_crlf (s : Source) : s.crlf.size = s.moved s.size := by
  rw [← length_toBytes, toBytes_crlf, length_crlfBytes, moved, crlfOffset, ← length_toBytes,
    List.take_length]

theorem row_crlf (s : Source) (a : Nat) : s.crlf.row (s.moved a) = s.row a := by
  have slices := slice_crlf s 0 a
  rw [moved_zero] at slices
  rw [row, slices, count_crlfBytes, row]

theorem line_crlf (s : Source) (a : Nat) : s.crlf.line (s.moved a) = s.line a := by
  rw [line, row_crlf, line]

/-- The beginning of the line up to an offset has no line feed. -/
theorem lineHead_crlf (s : Source) (a : Nat) : s.crlf.lineHead (s.moved a) = s.lineHead a := by
  have slices := slice_crlf s 0 a
  rw [moved_zero] at slices
  rw [lineHead, slices, lineHead]
  rw [← List.reverse_reverse (s.slice 0 a)]
  -- from the end of the line backwards
  generalize (s.slice 0 a).reverse = backwards
  induction backwards with
  | nil => rfl
  | cons b backwards ih =>
    rw [List.reverse_cons, crlfBytes_append, List.reverse_append, List.reverse_append,
      List.reverse_singleton, List.singleton_append]
    by_cases feed : b = 10
    · subst feed
      rfl
    · rw [crlfBytes_cons feed, show crlfBytes [] = [] from rfl, List.reverse_singleton,
        List.singleton_append, List.takeWhile_cons, List.takeWhile_cons, ih]

/-- The bytes before an offset, up to the line that holds it. -/
theorem exists_take_eq (s : Source) (a : Nat) :
    ∃ whole, s.toBytes.take a = whole ++ (s.lineHead a).reverse ∧
      whole = s.toBytes.take (s.lineStart a) ∧ (10 : UInt8) ∉ s.lineHead a := by
  have slice : s.slice 0 a = s.toBytes.take a := by rw [slice_eq, List.drop_zero, Nat.sub_zero]
  have split := List.takeWhile_append_dropWhile (p := (· != 10)) (l := (s.toBytes.take a).reverse)
  rw [← slice] at split
  have whole : s.toBytes.take a =
      ((s.slice 0 a).reverse.dropWhile (· != 10)).reverse ++ (s.lineHead a).reverse := by
    rw [← List.reverse_append, lineHead, split, List.reverse_reverse, slice]
  refine ⟨_, whole, ?_, fun mem => ?_⟩
  · have length := congrArg List.length whole
    rw [List.length_take, List.length_append, @List.length_reverse _ (s.lineHead a),
      length_toBytes] at length
    have start : s.lineStart a =
        ((s.slice 0 a).reverse.dropWhile (· != 10)).reverse.length := by
      rw [lineStart]
      omega
    have shorter : s.lineStart a ≤ a := by rw [lineStart]; omega
    conv => rhs; rw [← Nat.min_eq_left shorter, ← List.take_take, whole, start, List.take_left]
  · have other := List.all_eq_true.1 (List.all_takeWhile ..) 10 mem
    cases other

theorem lineStart_crlf (s : Source) (a : Nat) :
    s.crlf.lineStart (s.moved a) = s.moved (s.lineStart a) := by
  have least : min (s.moved a) (s.moved s.size) = s.moved (min a s.size) := by
    rcases Nat.le_total a s.size with h | h
    · rw [Nat.min_eq_left h, Nat.min_eq_left (moved_le_iff.2 h)]
    · rw [Nat.min_eq_right h, Nat.min_eq_right (moved_le_iff.2 h)]
  obtain ⟨whole, split, start, plain⟩ := s.exists_take_eq a
  have shorter : (s.lineHead a).length ≤ min a s.size := by
    have length := congrArg List.length split
    rw [List.length_take, List.length_append, List.length_reverse, length_toBytes] at length
    omega
  have count : (s.toBytes.take (min a s.size)).count 10 =
      (s.toBytes.take (s.lineStart a)).count 10 := by
    rw [← length_toBytes, List.take_eq_take_min.symm, split, ← start, List.count_append,
      List.count_reverse, List.count_eq_zero_of_not_mem plain, Nat.add_zero]
  rw [lineStart, lineHead_crlf, size_crlf, least, moved, moved, crlfOffset, crlfOffset, count,
    lineStart]
  omega

theorem lineIndent_crlf (s : Source) (a : Nat) :
    s.crlf.lineIndent (s.moved a) = s.lineIndent a := by
  rw [lineIndent, lineStart_crlf, size_crlf, slice_crlf, lineIndent]
  congr 1
  generalize s.slice (s.lineStart a) s.size = bytes
  induction bytes with
  | nil => rfl
  | cons b bytes ih =>
    by_cases feed : b = 10
    · subst feed
      rfl
    · rw [crlfBytes_cons feed, List.takeWhile_cons, List.takeWhile_cons, ih]

end Source

end MonoTap.Text

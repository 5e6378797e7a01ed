import MonoTap.Text.Source

/-!
# UTF-8 goes both ways

Reading back the bytes of a text gives the text, so that whatever is cut out of a source at the
boundaries of its characters, or put together from such pieces, is again the encoding of a text.
-/

set_option autoImplicit false

namespace MonoTap.Text

/-- The UTF-8 bytes of a list of characters. -/
def encodeChars (cs : List Char) : List UInt8 :=
  cs.flatMap String.utf8EncodeChar

@[simp] theorem encodeChars_nil : encodeChars [] = [] := rfl

theorem encodeChars_cons (c : Char) (cs : List Char) :
    encodeChars (c :: cs) = String.utf8EncodeChar c ++ encodeChars cs := rfl

theorem encodeChars_append (cs ds : List Char) :
    encodeChars (cs ++ ds) = encodeChars cs ++ encodeChars ds :=
  List.flatMap_append

theorem encode_ofList (cs : List Char) : encode (String.ofList cs) = encodeChars cs := by
  have bytes : (String.ofList cs).toUTF8.data = (encodeChars cs).toByteArray.data := rfl
  rw [encode, bytes, List.data_toByteArray]

theorem encode_eq (s : String) : encode s = encodeChars s.toList := by
  rw [← encode_ofList, String.ofList_toList]

/-! ### One character -/

theorem toNat_valid (c : Char) : c.toNat < 0xD800 ∨ 0xDFFF < c.toNat ∧ c.toNat < 0x110000 :=
  c.valid

theorem continuation?_ofNat {v : Nat} (h : v < 64) :
    continuation? (UInt8.ofNat (v + 0x80)) = some v := by
  have value : (UInt8.ofNat (v + 0x80)).toNat = v + 0x80 := by
    rw [UInt8.toNat_ofNat']
    omega
  have low : 0x80 ≤ v + 0x80 := by omega
  have high : v + 0x80 ≤ 0xBF := by omega
  simp only [continuation?, value, low, high, decide_true, Bool.and_self, ↓reduceIte,
    Nat.add_sub_cancel]

theorem readTail_ofNat {n bits width v : Nat} {bs : List UInt8} (h : v < 64) :
    readTail (n + 1) bits width (UInt8.ofNat (v + 0x80) :: bs) =
      readTail n (bits * 64 + v) (width + 1) bs := by
  simp only [readTail, continuation?_ofNat h]

theorem readSecond_ofNat {n bits low high v : Nat} {bs : List UInt8} (h : v < 64)
    (lower : low ≤ v + 0x80) (upper : v + 0x80 ≤ high) :
    readSecond n bits low high (UInt8.ofNat (v + 0x80) :: bs) =
      readTail n (bits * 64 + v) 2 bs := by
  have value : (UInt8.ofNat (v + 0x80)).toNat = v + 0x80 := by
    rw [UInt8.toNat_ofNat']
    omega
  simp only [readSecond, value, lower, upper, decide_true, Bool.and_self, ↓reduceIte,
    Nat.add_sub_cancel]

theorem readTail_zero {c : Char} {bits width : Nat} {bs : List UInt8} (h : bits = c.toNat) :
    readTail 0 bits width bs = .char c bs := by
  rw [readTail, h, Char.ofNat_toNat]

/-- A character is read back from its bytes. -/
theorem readChar_utf8EncodeChar (c : Char) (rest : List UInt8) :
    ∃ b bs, String.utf8EncodeChar c ++ rest = b :: bs ∧ readChar b bs = .char c rest := by
  have valid := toNat_valid c
  have first (v : Nat) (h : v < 256) : (UInt8.ofNat v).toNat = v := by
    rw [UInt8.toNat_ofNat']
    omega
  simp only [String.utf8EncodeChar]
  change ∃ b bs, (if c.toNat ≤ 0x7f then _ else _) ++ rest = b :: bs ∧ _
  split
  · refine ⟨_, _, rfl, ?_⟩
    rename_i one
    change readChar (UInt8.ofNat c.toNat) rest = .char c rest
    have value := first c.toNat (by omega)
    have ascii : c.toNat < 0x80 := by omega
    simp only [readChar, value, ascii, ↓reduceIte, Char.ofNat_toNat]
  · split
    · refine ⟨_, _, rfl, ?_⟩
      rename_i one two
      change readChar (UInt8.ofNat (c.toNat / 64 % 0x20 + 0xc0))
        (UInt8.ofNat (c.toNat % 0x40 + 0x80) :: rest) = .char c rest
      have two : c.toNat ≤ 0x7ff := two
      have value := first (c.toNat / 64 % 0x20 + 0xc0) (by omega)
      have h1 : ¬ c.toNat / 64 % 0x20 + 0xc0 < 0x80 := by omega
      have h2 : ¬ c.toNat / 64 % 0x20 + 0xc0 < 0xC2 := by omega
      have h3 : c.toNat / 64 % 0x20 + 0xc0 < 0xE0 := by omega
      simp only [readChar, value, h1, h2, h3, ↓reduceIte]
      rw [readSecond_ofNat (by omega) (by omega) (by omega)]
      exact readTail_zero (by omega)
    · split
      · refine ⟨_, _, rfl, ?_⟩
        rename_i one two three
        change readChar (UInt8.ofNat (c.toNat / 4096 % 0x10 + 0xe0))
          (UInt8.ofNat (c.toNat / 64 % 0x40 + 0x80) ::
            UInt8.ofNat (c.toNat % 0x40 + 0x80) :: rest) = .char c rest
        have two : ¬ c.toNat ≤ 0x7ff := two
        have three : c.toNat ≤ 0xffff := three
        have value := first (c.toNat / 4096 % 0x10 + 0xe0) (by omega)
        have h1 : ¬ c.toNat / 4096 % 0x10 + 0xe0 < 0x80 := by omega
        have h2 : ¬ c.toNat / 4096 % 0x10 + 0xe0 < 0xC2 := by omega
        have h3 : ¬ c.toNat / 4096 % 0x10 + 0xe0 < 0xE0 := by omega
        have h4 : c.toNat / 4096 % 0x10 + 0xe0 < 0xF0 := by omega
        simp only [readChar, value, h1, h2, h3, h4, ↓reduceIte]
        rw [readSecond_ofNat (by omega), readTail_ofNat (by omega)]
        · exact readTail_zero (by omega)
        · simp only [beq_iff_eq]
          split <;> omega
        · simp only [beq_iff_eq]
          split <;> omega
      · refine ⟨_, _, rfl, ?_⟩
        rename_i one two three
        change readChar (UInt8.ofNat (c.toNat / 262144 % 0x08 + 0xf0))
          (UInt8.ofNat (c.toNat / 4096 % 0x40 + 0x80) ::
            UInt8.ofNat (c.toNat / 64 % 0x40 + 0x80) ::
              UInt8.ofNat (c.toNat % 0x40 + 0x80) :: rest) = .char c rest
        have three : ¬ c.toNat ≤ 0xffff := three
        have value := first (c.toNat / 262144 % 0x08 + 0xf0) (by omega)
        have h1 : ¬ c.toNat / 262144 % 0x08 + 0xf0 < 0x80 := by omega
        have h2 : ¬ c.toNat / 262144 % 0x08 + 0xf0 < 0xC2 := by omega
        have h3 : ¬ c.toNat / 262144 % 0x08 + 0xf0 < 0xE0 := by omega
        have h4 : ¬ c.toNat / 262144 % 0x08 + 0xf0 < 0xF0 := by omega
        have h5 : c.toNat / 262144 % 0x08 + 0xf0 < 0xF5 := by omega
        simp only [readChar, value, h1, h2, h3, h4, h5, ↓reduceIte]
        rw [readSecond_ofNat (by omega), readTail_ofNat (by omega), readTail_ofNat (by omega)]
        · exact readTail_zero (by omega)
        · simp only [beq_iff_eq]
          split <;> omega
        · simp only [beq_iff_eq]
          split <;> omega

/-- The bytes of a text read as the text. -/
theorem decodeLossy_encodeChars (cs : List Char) : decodeLossy (encodeChars cs) = cs := by
  induction cs with
  | nil => simp only [encodeChars_nil, decodeLossy]
  | cons c cs ih =>
    obtain ⟨b, bs, split, read⟩ := readChar_utf8EncodeChar c (encodeChars cs)
    rw [encodeChars_cons, split, decodeLossy]
    split
    · rename_i d rest h
      rw [read] at h
      cases h
      rw [ih]
    · rename_i h
      rw [read] at h
      cases h

theorem decodeFrom_encodeChars (position : Nat) (cs : List Char) :
    decodeFrom position (encodeChars cs) = .ok cs := by
  induction cs generalizing position with
  | nil => simp only [encodeChars_nil, decodeFrom]
  | cons c cs ih =>
    obtain ⟨b, bs, split, read⟩ := readChar_utf8EncodeChar c (encodeChars cs)
    rw [encodeChars_cons, split, decodeFrom]
    split
    · rename_i d rest h
      rw [read] at h
      cases h
      rw [ih]
    · rename_i h
      rw [read] at h
      cases h

/-- The bytes of a text have no fault. -/
theorem decode_encode (s : String) : decode (encode s) = .ok s := by
  rw [decode, encode_eq, decodeFrom_encodeChars]
  exact congrArg Except.ok String.ofList_toList

theorem encodeChars_injective {cs ds : List Char} (h : encodeChars cs = encodeChars ds) :
    cs = ds := by
  rw [← decodeLossy_encodeChars cs, h, decodeLossy_encodeChars]

/-- Two ways to cut a text at one offset are the same. -/
theorem append_inj_of_encodeChars {as bs cs ds : List Char} (h : as ++ bs = cs ++ ds)
    (size : (encodeChars as).length = (encodeChars cs).length) : as = cs ∧ bs = ds := by
  have bytes := congrArg encodeChars h
  rw [encodeChars_append, encodeChars_append] at bytes
  obtain ⟨first, second⟩ := List.append_inj bytes size
  exact ⟨encodeChars_injective first, encodeChars_injective second⟩

theorem encode_injective {s t : String} (h : encode s = encode t) : s = t := by
  rw [encode_eq, encode_eq] at h
  exact String.toList_injective (encodeChars_injective h)

/-! ### ASCII -/

/-- The characters of a text. If all bytes are small, each is a character, and nothing is decoded. -/
def charsOf (s : String) : List Char :=
  if (encode s).all fun b => decide (b.toNat < 0x80) then (encode s).map fun b => Char.ofNat b.toNat
  else s.toList

/-- Small bytes are characters of their own. -/
theorem decodeLossy_of_small {bs : List UInt8} (small : ∀ b ∈ bs, b.toNat < 0x80) :
    decodeLossy bs = bs.map fun b => Char.ofNat b.toNat := by
  induction bs with
  | nil => simp only [decodeLossy, List.map_nil]
  | cons b bs ih =>
    have read : readChar b bs = .char (Char.ofNat b.toNat) bs := by
      simp only [readChar, small b List.mem_cons_self, ↓reduceIte]
    rw [decodeLossy, List.map_cons]
    split
    · rename_i d rest h
      rw [read] at h
      cases h
      rw [ih fun c hc => small c (List.mem_cons_of_mem b hc)]
    · rename_i h
      rw [read] at h
      cases h

theorem toList_eq_charsOf (s : String) : s.toList = charsOf s := by
  rw [charsOf]
  split
  · rename_i all
    have small : ∀ b ∈ encode s, b.toNat < 0x80 := fun b mem =>
      of_decide_eq_true (List.all_eq_true.1 all b mem)
    rw [← decodeLossy_of_small small, encode_eq, decodeLossy_encodeChars]
  · rfl

/-! ### Boundaries -/

theorem encodeChars_eq_nil {cs : List Char} (h : (encodeChars cs).length = 0) : cs = [] := by
  cases cs with
  | nil => rfl
  | cons c cs =>
    obtain ⟨b, bs, split, _⟩ := readChar_utf8EncodeChar c (encodeChars cs)
    rw [encodeChars_cons, split] at h
    cases h

/-- An offset between two characters of a text whose first byte has the offset `origin`. -/
def Boundary (origin : Nat) (cs : List Char) (offset : Nat) : Prop :=
  ∃ front back, cs = front ++ back ∧ offset = origin + (encodeChars front).length

theorem Boundary.start (origin : Nat) (cs : List Char) : Boundary origin cs origin :=
  ⟨[], cs, rfl, rfl⟩

theorem Boundary.stop (origin : Nat) (cs : List Char) :
    Boundary origin cs (origin + (encodeChars cs).length) :=
  ⟨cs, [], (List.append_nil cs).symm, rfl⟩

theorem Boundary.le {origin offset : Nat} {cs : List Char} (h : Boundary origin cs offset) :
    origin ≤ offset ∧ offset ≤ origin + (encodeChars cs).length := by
  obtain ⟨front, back, rfl, rfl⟩ := h
  rw [encodeChars_append, List.length_append]
  omega

/-- A boundary after the front of a text is one of the rest. -/
theorem Boundary.of_append {origin offset : Nat} {front back : List Char}
    (h : Boundary origin (front ++ back) offset)
    (later : origin + (encodeChars front).length ≤ offset) :
    Boundary (origin + (encodeChars front).length) back offset := by
  obtain ⟨first, second, split, rfl⟩ := h
  rcases List.append_eq_append_iff.1 split with ⟨middle, rfl, rfl⟩ | ⟨middle, rfl, rfl⟩
  · refine ⟨middle, second, rfl, ?_⟩
    rw [encodeChars_append, List.length_append]
    omega
  · rw [encodeChars_append, List.length_append] at later ⊢
    have empty := encodeChars_eq_nil (show (encodeChars middle).length = 0 by omega)
    subst empty
    exact ⟨[], back, rfl, by simp⟩

/-- A boundary of a text that is not after its front is one of the front. -/
theorem Boundary.of_append_left {origin offset : Nat} {front back : List Char}
    (h : Boundary origin (front ++ back) offset)
    (earlier : offset ≤ origin + (encodeChars front).length) : Boundary origin front offset := by
  obtain ⟨first, second, split, rfl⟩ := h
  rcases List.append_eq_append_iff.1 split with ⟨middle, rfl, rfl⟩ | ⟨middle, rfl, rfl⟩
  · rw [encodeChars_append, List.length_append] at earlier
    have empty := encodeChars_eq_nil (show (encodeChars middle).length = 0 by omega)
    subst empty
    exact ⟨front, [], (List.append_nil front).symm, by rw [List.append_nil]⟩
  · exact ⟨first, middle, rfl, rfl⟩

/-- Two boundaries cut a text into three. -/
theorem Boundary.split {origin first second : Nat} {cs : List Char}
    (left : Boundary origin cs first) (right : Boundary origin cs second) (h : first ≤ second) :
    ∃ front middle back, cs = front ++ (middle ++ back) ∧
      first = origin + (encodeChars front).length ∧
      second = first + (encodeChars middle).length := by
  obtain ⟨front, rest, rfl, rfl⟩ := left
  obtain ⟨middle, back, rfl, rfl⟩ := right.of_append h
  exact ⟨front, middle, back, rfl, rfl, rfl⟩

/-- The bytes between two boundaries are those of the text between them. -/
theorem encodeChars_between {front middle back : List Char} {first second : Nat}
    (start : first = (encodeChars front).length)
    (stop : second = first + (encodeChars middle).length) :
    ((encodeChars (front ++ (middle ++ back))).drop first).take (second - first) =
      encodeChars middle := by
  rw [stop, start, Nat.add_sub_cancel_left, encodeChars_append, List.drop_left, encodeChars_append,
    List.take_left]

/-! ### Lines -/

/-- A small byte stands for the character with its number. -/
theorem eq_ofNat_of_mem {c : Char} {b : UInt8} (small : b.toNat < 0x80)
    (h : b ∈ String.utf8EncodeChar c) : c = Char.ofNat b.toNat := by
  have value {v : Nat} (bound : v < 256) (byte : b = UInt8.ofNat v) : v = b.toNat := by
    have same := congrArg UInt8.toNat byte
    rw [UInt8.toNat_ofNat'] at same
    omega
  have larger {v : Nat} (bound : v < 256) (large : 0x80 ≤ v) : ¬ b = UInt8.ofNat v := by
    intro byte
    have := value bound byte
    omega
  have valid := toNat_valid c
  simp only [String.utf8EncodeChar] at h
  change b ∈ (if c.toNat ≤ 0x7f then [UInt8.ofNat c.toNat] else _) at h
  split at h
  · rw [← value (by omega) (List.mem_singleton.1 h), Char.ofNat_toNat]
  -- every byte of a longer encoding is large
  · split at h
    · simp only [List.mem_cons, List.not_mem_nil, or_false] at h
      rcases h with h | h <;> exact absurd h (larger (by omega) (by omega))
    · split at h
      · simp only [List.mem_cons, List.not_mem_nil, or_false] at h
        rcases h with h | h | h <;> exact absurd h (larger (by omega) (by omega))
      · simp only [List.mem_cons, List.not_mem_nil, or_false] at h
        rcases h with h | h | h | h <;> exact absurd h (larger (by omega) (by omega))

theorem eq_lineFeed_of_mem {c : Char} (h : (10 : UInt8) ∈ String.utf8EncodeChar c) : c = '\n' :=
  eq_ofNat_of_mem (by decide) h

theorem mem_of_mem_encodeChars {cs : List Char} {b : UInt8} (small : b.toNat < 0x80)
    (h : b ∈ encodeChars cs) : Char.ofNat b.toNat ∈ cs := by
  obtain ⟨c, hc, byte⟩ := List.mem_flatMap.1 h
  exact eq_ofNat_of_mem small byte ▸ hc

theorem lineFeed_not_mem {cs : List Char} (h : '\n' ∉ cs) : (10 : UInt8) ∉ encodeChars cs :=
  fun mem => h (mem_of_mem_encodeChars (by decide) mem)

/-- Every text is some whole lines and then the beginning of a line. -/
theorem exists_lastLine (cs : List Char) :
    ∃ before line, cs = before ++ line ∧ '\n' ∉ line ∧
      (before = [] ∨ ∃ whole, before = whole ++ ['\n']) := by
  induction cs with
  | nil => exact ⟨[], [], rfl, List.not_mem_nil, Or.inl rfl⟩
  | cons c cs ih =>
    obtain ⟨before, line, rfl, hline, hbefore⟩ := ih
    rcases hbefore with rfl | ⟨whole, rfl⟩
    · by_cases feed : c = '\n'
      · exact ⟨[c], line, rfl, hline, Or.inr ⟨[], by rw [feed, List.nil_append]⟩⟩
      · refine ⟨[], c :: line, rfl, ?_, Or.inl rfl⟩
        intro mem
        rcases List.mem_cons.1 mem with h | h
        · exact feed h.symm
        · exact hline h
    · exact ⟨c :: (whole ++ ['\n']), line, rfl, hline, Or.inr ⟨c :: whole, rfl⟩⟩

theorem takeWhile_reverse_encodeChars {before line : List Char} (inLine : '\n' ∉ line)
    (whole : before = [] ∨ ∃ lines, before = lines ++ ['\n']) :
    (encodeChars (before ++ line)).reverse.takeWhile (· != 10) = (encodeChars line).reverse := by
  have passes : ∀ b ∈ (encodeChars line).reverse, (b != 10) = true := by
    intro b hb
    rw [bne_iff_ne]
    rintro rfl
    exact lineFeed_not_mem inLine (List.mem_reverse.1 hb)
  rw [encodeChars_append, List.reverse_append, List.takeWhile_append_of_pos passes]
  rcases whole with rfl | ⟨lines, rfl⟩
  · simp
  · have feed : encodeChars ['\n'] = [10] := by decide
    rw [encodeChars_append, feed]
    simp

/-- The line of an offset starts after the last line feed before it. -/
theorem lineStart_eq {text : String} {before line back : List Char} (split : text.toList = before ++ line ++ back)
    (inLine : '\n' ∉ line) (whole : before = [] ∨ ∃ lines, before = lines ++ ['\n']) :
    (Source.ofString text).lineStart (encodeChars (before ++ line)).length = (encodeChars before).length := by
  have bytes : (Source.ofString text).toBytes = encodeChars (before ++ line ++ back) := by
    rw [Source.toBytes_ofString, encode_eq, split]
  have size : (Source.ofString text).size =
      (encodeChars (before ++ line)).length + (encodeChars back).length := by
    rw [← List.length_append, ← encodeChars_append, ← bytes]
    rfl
  have head : (Source.ofString text).lineHead (encodeChars (before ++ line)).length =
      (encodeChars line).reverse := by
    rw [Source.lineHead, Source.slice_eq, bytes, List.drop_zero, Nat.sub_zero,
      encodeChars_append (before ++ line), List.take_left,
      takeWhile_reverse_encodeChars inLine whole]
  rw [Source.lineStart, head, size, List.length_reverse, encodeChars_append, List.length_append]
  omega

/-- A line starts between two characters. -/
theorem boundary_lineStart {text : String} {offset : Nat}
    (h : Boundary 0 text.toList offset) :
    Boundary 0 text.toList ((Source.ofString text).lineStart offset) ∧
      (Source.ofString text).lineStart offset ≤ offset := by
  obtain ⟨front, back, split, rfl⟩ := h
  obtain ⟨before, line, rfl, hline, hbefore⟩ := exists_lastLine front
  rw [Nat.zero_add, lineStart_eq split hline hbefore]
  refine ⟨⟨before, line ++ back, ?_, (Nat.zero_add _).symm⟩, ?_⟩
  · rw [split, List.append_assoc]
  · rw [encodeChars_append, List.length_append]
    omega

end MonoTap.Text

import LibAtrinik.PasswordRecords

namespace LibAtrinik.HexCodecs

open HexText Password

/-- The characters that `string_is_hex_fixed` lets pass. -/
def isFixedDigit (lowercaseOnly : Bool) (c : Char) : Bool :=
  (('0' ≤ c && c ≤ '9') || ('a' ≤ c && c ≤ 'f')) || (!lowercaseOnly && 'A' ≤ c && c ≤ 'F')

def stringIsHexFixed (str : Option (List Char)) (length : ℕ) (lowercaseOnly : Bool) : Bool :=
  match str with
  | none => false
  | some str => str.length = length && str.all (isFixedDigit lowercaseOnly)

/-- The value of one digit in `string_decode_hex_fixed`. -/
def nibble (c : Char) : UInt8 :=
  if c ≤ '9' then UInt8.ofNat (c.toNat-48) else UInt8.ofNat (c.toLower.toNat-97+10)

/-- The bytes, if the string is accepted; `resultSize` is the number of them that fit. -/
def stringDecodeHexFixed (str : Option (List Char)) (length : ℕ) (lowercaseOnly : Bool)
    (resultSize : ℕ) : Option (List UInt8) :=
  if length &&& 1 ≠ 0 ∨ resultSize ≠ length/2 ∨ stringIsHexFixed str length lowercaseOnly = false
    then none
  else
    let chars := str.getD []
    some ((List.range resultSize).map fun i =>
      (nibble (chars.getD (i*2) '\x00') <<< 4) ||| nibble (chars.getD (i*2+1) '\x00'))

/-- The text of a byte, with a separator if there is one. -/
def group (sep : Bool) (b : UInt8) : List Char :=
  [digit (b.toNat/16), digit (b.toNat%16)] ++ if sep then [':'] else []

/-- The texts of the bytes; the last one has no separator. -/
def groups (sep : Bool) : List UInt8 → List (List Char)
  | [] => []
  | [b] => [group false b]
  | b::next::str => group sep b :: groups sep (next::str)

theorem groups_cons (sep : Bool) (b : UInt8) (str : List UInt8) :
    groups sep (b::str) = group (if str = [] then false else sep) b :: groups sep str := by
  cases str with
  | nil => rfl
  | cons next str => rw [groups, if_neg (List.cons_ne_nil _ _)]

theorem length_groups (sep : Bool) (str : List UInt8) : (groups sep str).length = str.length := by
  induction str with
  | nil => rfl
  | cons b str ih => rw [groups_cons, List.length_cons, ih, List.length_cons]

theorem length_group (sep : Bool) (b : UInt8) :
    (group sep b).length = if sep then 3 else 2 := by
  cases sep <;> rfl

theorem groups_false (str : List UInt8) : (groups false str).flatten = encode str := by
  induction str with
  | nil => rfl
  | cons b str ih =>
    rw [groups_cons, ite_self, List.flatten_cons, ih, encode_cons]
    rfl

/-- The characters that a text of bytes needs. -/
def textLength (sep : Bool) (str : List UInt8) : ℕ :=
  if sep ∧ str ≠ [] then 3*str.length-1 else 2*str.length

theorem length_text (sep : Bool) (str : List UInt8) :
    (groups sep str).flatten.length = textLength sep str := by
  cases sep with
  | false =>
    rw [groups_false, length_encode, textLength, if_neg (by simp)]
  | true =>
    induction str with
    | nil => rfl
    | cons b str ih =>
      rw [groups_cons, List.flatten_cons, List.length_append, ih, length_group, textLength,
        textLength]
      cases str with
      | nil => rfl
      | cons next str =>
        simp only [List.cons_ne_nil, ne_eq, not_false_eq_true, and_true, if_true, if_false,
          List.length_cons]
        omega

theorem tohexLoop_cons (resultsize : ℕ) (sep : Bool) (b : UInt8) (str : List UInt8)
    (result : List Char) :
    tohexLoop resultsize sep (b::str) result =
      if result.length+(group (if str = [] then false else sep) b).length > resultsize-1 then result
      else tohexLoop resultsize (if str = [] then false else sep) str
        (result ++ group (if str = [] then false else sep) b) := by
  rw [length_group]
  simp only [tohexLoop, group, List.append_assoc]

/-- The encoder writes the texts of the first bytes, and never past the buffer. -/
theorem tohexLoop_groups (resultsize : ℕ) (sep : Bool) (str : List UInt8) (result : List Char)
    (hroom : result.length < resultsize) :
    ∃ k ≤ str.length,
      tohexLoop resultsize sep str result = result ++ ((groups sep str).take k).flatten ∧
      (tohexLoop resultsize sep str result).length < resultsize ∧
      (result.length+(groups sep str).flatten.length < resultsize → k = str.length) := by
  induction str generalizing result sep with
  | nil =>
    refine ⟨0, Nat.le_refl _, ?_, hroom, fun _ => rfl⟩
    rw [tohexLoop, List.take_zero, List.flatten_nil, List.append_nil]
  | cons b str ih =>
    rw [tohexLoop_cons, groups_cons, List.flatten_cons, List.length_append]
    -- the first byte that does not fit ends the loop
    by_cases hfull : result.length+(group (if str = [] then false else sep) b).length > resultsize-1
    · rw [if_pos hfull]
      refine ⟨0, Nat.zero_le _, ?_, hroom, fun hfits => ?_⟩
      · rw [List.take_zero, List.flatten_nil, List.append_nil]
      · omega
    · obtain ⟨k, hk, htext, hbound, hall⟩ := ih (if str = [] then false else sep)
        (result ++ group (if str = [] then false else sep) b) (by
          rw [List.length_append]
          omega)
      have hgroups : groups (if str = [] then false else sep) str = groups sep str := by
        cases str with
        | nil => rfl
        | cons next str => rw [if_neg (List.cons_ne_nil _ _)]
      rw [hgroups] at htext hall
      rw [if_neg hfull]
      refine ⟨k+1, Nat.succ_le_succ hk, ?_, hbound, fun hfits => ?_⟩
      · rw [htext, List.take_succ_cons, List.flatten_cons, List.append_assoc]
      · rw [hall (by rw [List.length_append]; omega), List.length_cons]

theorem stringTohex_groups {resultsize : ℕ} (sep : Bool) (str : List UInt8)
    (hroom : textLength sep str < resultsize) :
    stringTohex str resultsize sep = (groups sep str).flatten := by
  obtain ⟨k, hk, htext, -, hall⟩ := tohexLoop_groups resultsize sep str [] (by
    rw [List.length_nil]
    omega)
  rw [stringTohex, htext, hall (by rw [length_text, List.length_nil]; omega), List.nil_append,
    List.take_of_length_le (Nat.le_of_eq (length_groups sep str))]

theorem stringTohex_encode {resultsize : ℕ} (str : List UInt8) (hroom : 2*str.length < resultsize) :
    stringTohex str resultsize false = encode str := by
  rw [stringTohex_groups false str (by simpa [textLength] using hroom), groups_false]

/-- A byte and its separator are read. -/
theorem fromhexLoop_group (sep : Bool) (b : UInt8) (str : List Char) (resultsize : ℕ)
    (result : List UInt8) (hroom : result.length < resultsize)
    (hsep : sep = true → result.length+1 < resultsize) :
    fromhexLoop resultsize (group sep b ++ str) 0 0 result =
      fromhexLoop resultsize str 0 0 (result ++ [b]) := by
  have hlt := b.toNat_lt
  have hbyte : UInt8.ofNat (16*(b.toNat/16)+b.toNat%16) = b := by
    rw [Nat.div_add_mod, UInt8.ofNat_toNat]
  have hpair (text : List Char) := fromhexLoop_pair ⟨b.toNat/16, by omega⟩
    ⟨b.toNat%16, by omega⟩ text resultsize result hroom
  simp only [hbyte] at hpair
  cases sep with
  | false => exact hpair str
  | true =>
    -- the separator is skipped, since no digit of a byte has been found
    have hcolon : isDigit ':' = false := by decide
    have hroom' : (result ++ [b]).length < resultsize := by
      rw [List.length_append, List.length_singleton]
      exact hsep rfl
    refine (hpair (':'::str)).trans ?_
    simp only [fromhexLoop, hroom', hcolon, if_true, Bool.false_eq_true, if_false]
    rw [if_neg (by decide)]

theorem fromhexLoop_groups (sep : Bool) (str : List UInt8) (resultsize : ℕ) (result : List UInt8)
    (hroom : result.length+str.length ≤ resultsize) :
    fromhexLoop resultsize (groups sep str).flatten 0 0 result = result ++ str := by
  induction str generalizing result with
  | nil =>
    rw [List.append_nil]
    rfl
  | cons b str ih =>
    rw [List.length_cons] at hroom
    rw [groups_cons, List.flatten_cons, fromhexLoop_group _ _ _ _ _ (by omega), ih,
      List.append_assoc, List.singleton_append]
    · rw [List.length_append, List.length_singleton]
      omega
    · intro hsep
      have hmore : 0 < str.length := by
        rw [List.length_pos_iff]
        rintro rfl
        simp at hsep
      omega

/-- A digit of either case is one of the sixteen. -/
theorem fixed_digit {lowercaseOnly : Bool} {c : Char} (h : isFixedDigit lowercaseOnly c = true) :
    ∃ k : Fin 16, c.toUpper = digit k ∧ nibble c = UInt8.ofNat k := by
  have hsmall : c.toNat < 128 := by
    simp only [isFixedDigit, Bool.or_eq_true, Bool.and_eq_true, decide_eq_true_eq] at h
    rcases h with (⟨-, h⟩ | ⟨-, h⟩) | ⟨-, h⟩
    · have h : c.toNat ≤ 57 := h
      omega
    · have h : c.toNat ≤ 102 := h
      omega
    · have h : c.toNat ≤ 70 := h
      omega
  have hall : ∀ n : Fin 128, (isFixedDigit false (Char.ofNat n) = true) →
      ∃ k : Fin 16, (Char.ofNat n).toUpper = digit k ∧ nibble (Char.ofNat n) = UInt8.ofNat k := by
    decide
  have hc : isFixedDigit false c = true := by
    cases lowercaseOnly with
    | false => exact h
    | true => simpa [isFixedDigit] using Or.inl h
  have := hall ⟨c.toNat, hsmall⟩
  rw [Char.ofNat_toNat] at this
  exact this hc

theorem fixed_upper {lowercaseOnly : Bool} {str : List Char}
    (h : str.all (isFixedDigit lowercaseOnly) = true) :
    ∀ c ∈ str.map Char.toUpper, isDigit c = true := by
  intro c hc
  obtain ⟨d, hd, rfl⟩ := List.mem_map.mp hc
  obtain ⟨k, hupper, -⟩ := fixed_digit (List.all_eq_true.mp h d hd)
  rw [hupper]
  exact (value_digit k).2

/-- Two digits of the strict decoder make one byte. -/
theorem joined_nibbles (x y : Fin 16) :
    (UInt8.ofNat x <<< 4) ||| UInt8.ofNat y = UInt8.ofNat (16*x.val+y.val) := by
  revert x y
  decide

/-- The strict decoder reads pairs of digits, whatever their case is. -/
theorem nibbles_eq {lowercaseOnly : Bool} (n : ℕ) {str : List Char} (hlength : str.length = 2*n)
    (h : str.all (isFixedDigit lowercaseOnly) = true) :
    ((List.range n).map fun i =>
      (nibble (str.getD (i*2) '\x00') <<< 4) ||| nibble (str.getD (i*2+1) '\x00')) =
      decode (str.map Char.toUpper) := by
  induction n generalizing str with
  | zero =>
    rw [List.length_eq_zero_iff.mp hlength]
    rfl
  | succ n ih =>
    match str, hlength with
    | high::low::str, hlength =>
      simp only [List.all_cons, Bool.and_eq_true] at h
      obtain ⟨hhigh, hlow, hrest⟩ := h
      obtain ⟨x, hx, hxn⟩ := fixed_digit hhigh
      obtain ⟨y, hy, hyn⟩ := fixed_digit hlow
      have hshift : ((List.range n).map fun i =>
          (nibble ((high::low::str).getD ((i+1)*2) '\x00') <<< 4) |||
            nibble ((high::low::str).getD ((i+1)*2+1) '\x00')) = decode (str.map Char.toUpper) := by
        rw [← ih (by simp only [List.length_cons] at hlength; omega) hrest]
        apply List.map_congr_left
        intro i _
        rw [Nat.succ_mul]
        rfl
      rw [List.range_succ_eq_map, List.map_cons, List.map_map, List.map_cons, List.map_cons, decode,
        hx, hy, (value_digit x).1, (value_digit y).1, ← joined_nibbles, ← hshift]
      simp only [Nat.zero_mul, List.getD_cons_zero, Nat.zero_add, List.getD_cons_succ, hxn, hyn]
      rfl

/-- What the strict decoder accepts, and what it makes of it. -/
theorem stringDecodeHexFixed_eq_some {str : List Char} {length n : ℕ} {lowercaseOnly : Bool}
    {bytes : List UInt8} :
    stringDecodeHexFixed (some str) length lowercaseOnly n = some bytes ↔
      str.length = 2*n ∧ length = 2*n ∧ str.all (isFixedDigit lowercaseOnly) = true ∧
        bytes = decode (str.map Char.toUpper) := by
  simp only [stringDecodeHexFixed, stringIsHexFixed, Nat.and_one_is_mod]
  constructor
  · intro h
    split_ifs at h with hno
    simp only [not_or, not_not, Bool.and_eq_false_iff, decide_eq_false_iff_not] at hno
    obtain ⟨heven, hsize, hstr, hall⟩ := hno
    have hall : str.all (isFixedDigit lowercaseOnly) = true := by simpa using hall
    have hlength : length = 2*n := by omega
    refine ⟨by omega, hlength, hall, ?_⟩
    rw [← nibbles_eq n (by omega) hall]
    exact (Option.some.inj h).symm
  · rintro ⟨hstr, rfl, hall, rfl⟩
    rw [if_neg (by simp [hall, hstr]), ← nibbles_eq n hstr hall]
    rfl

theorem digit_cases (k : Fin 16) :
    (digit k).toUpper = digit k ∧ (digit k).toLower.toUpper = digit k ∧
      isFixedDigit false (digit k) = true ∧
      ∀ lowercaseOnly, isFixedDigit lowercaseOnly (digit k).toLower = true := by
  revert k
  decide

/-- The text of the encoder is accepted in a case that is allowed, and read as its bytes. -/
theorem decode_fixed {lowercaseOnly : Bool} (str : List UInt8) (f : Char → Char)
    (hupper : ∀ k : Fin 16, (f (digit k)).toUpper = digit k)
    (hfixed : ∀ k : Fin 16, isFixedDigit lowercaseOnly (f (digit k)) = true) :
    stringDecodeHexFixed (some ((encode str).map f)) (2*str.length) lowercaseOnly str.length =
      some str := by
  have hmap : ((encode str).map f).map Char.toUpper = encode str := by
    rw [List.map_map]
    apply (List.map_congr_left fun c hc => ?_).trans (List.map_id _)
    obtain ⟨k, rfl⟩ := exists_digit (encode_digits str c hc)
    exact hupper k
  rw [stringDecodeHexFixed_eq_some]
  refine ⟨?_, rfl, ?_, ?_⟩
  · rw [List.length_map, length_encode]
  · rw [List.all_map, List.all_eq_true]
    intro c hc
    obtain ⟨k, rfl⟩ := exists_digit (encode_digits str c hc)
    exact hfixed k
  · rw [hmap, decode_encode]

/-- The codecs agree. With room for the text every byte sequence is written in full and read back,
by the skipping decoder with or without separators and by the strict one in the cases it allows;
what the strict one accepts is the text of its bytes up to the case; and without room the text is
that of the first bytes, with its end in the buffer. -/
theorem hex_codecs_agree :
    (∀ (b : List UInt8) (sep : Bool) (resultsize : ℕ), textLength sep b < resultsize →
      (stringTohex b resultsize sep).length = textLength sep b ∧
      ∀ n, b.length ≤ n → stringFromhex (stringTohex b resultsize sep) n = b) ∧
    (∀ (b : List UInt8) (resultsize : ℕ), 2*b.length < resultsize →
      stringDecodeHexFixed (some (stringTohex b resultsize false)) (2*b.length) false b.length =
        some b ∧
      ∀ lowercaseOnly, stringDecodeHexFixed
        (some ((stringTohex b resultsize false).map Char.toLower)) (2*b.length) lowercaseOnly
        b.length = some b) ∧
    (∀ (str : List Char) (length n : ℕ) (lowercaseOnly : Bool) (b : List UInt8) (resultsize : ℕ),
      stringDecodeHexFixed (some str) length lowercaseOnly n = some b → 2*b.length < resultsize →
      stringTohex b resultsize false = str.map Char.toUpper) ∧
    ∀ (b : List UInt8) (sep : Bool) (resultsize : ℕ), 1 ≤ resultsize →
      (stringTohex b resultsize sep).length < resultsize ∧
      ∃ k ≤ b.length, stringTohex b resultsize sep = ((groups sep b).take k).flatten := by
  refine ⟨fun b sep resultsize hroom => ⟨?_, fun n hn => ?_⟩,
    fun b resultsize hroom => ⟨?_, fun lowercaseOnly => ?_⟩,
    fun str length n lowercaseOnly b resultsize hdecode hroom => ?_,
    fun b sep resultsize hroom => ?_⟩
  · rw [stringTohex_groups sep b hroom, length_text]
  · rw [stringTohex_groups sep b hroom, stringFromhex,
      fromhexLoop_groups sep b n [] (by simpa using hn), List.nil_append]
  · have hsame := decode_fixed b id (fun k => (digit_cases k).1) fun k => (digit_cases k).2.2.1
    rwa [List.map_id, ← stringTohex_encode b hroom] at hsame
  · rw [stringTohex_encode b hroom]
    exact decode_fixed b Char.toLower (fun k => (digit_cases k).2.1) fun k =>
      (digit_cases k).2.2.2 lowercaseOnly
  · obtain ⟨hlength, -, hall, rfl⟩ := stringDecodeHexFixed_eq_some.mp hdecode
    rw [stringTohex_encode _ hroom]
    exact (encode_decode (str.map Char.toUpper) n (by rw [List.length_map, hlength])
      (fixed_upper hall)).1
  · obtain ⟨k, hk, htext, hbound, -⟩ := tohexLoop_groups resultsize sep b [] hroom
    rw [List.nil_append] at htext
    exact ⟨hbound, k, hk, htext⟩

/-- Two bytes with room for both, and without. -/
theorem hex_codecs_agree_two :
    (stringTohex [0xAB, 0x01] 6 true).length = 5 ∧
    stringDecodeHexFixed (some ((stringTohex [0xAB, 0x01] 5 false).map Char.toLower)) 4 true 2 =
      some [0xAB, 0x01] ∧
    stringTohex [0xAB, 0x01] 5 false = ['a', 'B', '0', '1'].map Char.toUpper ∧
    (stringTohex [0xAB, 0x01] 4 true).length < 4 :=
  ⟨(hex_codecs_agree.1 [0xAB, 0x01] true 6 (by decide)).1,
    (hex_codecs_agree.2.1 [0xAB, 0x01] 5 (by decide)).2 true,
    hex_codecs_agree.2.2.1 ['a', 'B', '0', '1'] 4 2 false [0xAB, 0x01] 5 (by decide) (by decide),
    (hex_codecs_agree.2.2.2 [0xAB, 0x01] true 4 (by decide)).1⟩

end LibAtrinik.HexCodecs

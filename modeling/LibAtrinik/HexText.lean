import Mathlib.Data.List.Basic

namespace HexText

/-- The digit of a number below 16. -/
def digit (k : ℕ) : Char := if k < 10 then Char.ofNat (48+k) else Char.ofNat (55+k)

def isDigit (c : Char) : Bool := ('A' ≤ c && c ≤ 'F') || ('0' ≤ c && c ≤ '9')

def value (c : Char) : ℕ := if 'A' ≤ c then c.toNat-55 else c.toNat-48

theorem value_digit (k : Fin 16) : value (digit k) = k ∧ isDigit (digit k) = true := by
  revert k
  decide

/-- Every digit is the digit of a number below 16. -/
theorem exists_digit {c : Char} (h : isDigit c = true) : ∃ k : Fin 16, c = digit k := by
  simp only [isDigit, Bool.or_eq_true, Bool.and_eq_true, decide_eq_true_eq] at h
  rcases h with ⟨hlow,hhigh⟩ | ⟨hlow,hhigh⟩
  · have hlow' : 65 ≤ c.toNat := hlow
    have hhigh' : c.toNat ≤ 70 := hhigh
    refine ⟨⟨c.toNat-55, by omega⟩, ?_⟩
    rw [digit, if_neg (by dsimp only; omega)]
    rw [show 55+(c.toNat-55) = c.toNat by omega, Char.ofNat_toNat]
  · have hlow' : 48 ≤ c.toNat := hlow
    have hhigh' : c.toNat ≤ 57 := hhigh
    refine ⟨⟨c.toNat-48, by omega⟩, ?_⟩
    rw [digit, if_pos (by dsimp only; omega)]
    rw [show 48+(c.toNat-48) = c.toNat by omega, Char.ofNat_toNat]

def encode (bytes : List UInt8) : List Char :=
  bytes.flatMap fun b => [digit (b.toNat/16), digit (b.toNat%16)]

def decode : List Char → List UInt8
  | high::low::text => UInt8.ofNat (16*value high + value low) :: decode text
  | _ => []

theorem encode_cons (b : UInt8) (bytes : List UInt8) :
    encode (b::bytes) = digit (b.toNat/16) :: digit (b.toNat%16) :: encode bytes := rfl

theorem length_encode (bytes : List UInt8) : (encode bytes).length = 2*bytes.length := by
  induction bytes with
  | nil => rfl
  | cons b bytes ih =>
    rw [encode_cons, List.length_cons, List.length_cons, ih, List.length_cons]
    omega

theorem encode_digits (bytes : List UInt8) : ∀ c ∈ encode bytes, isDigit c = true := by
  intro c hc
  obtain ⟨b,-,hb⟩ := List.mem_flatMap.mp hc
  have hlt := b.toNat_lt
  rcases List.mem_cons.mp hb with rfl | hb
  · exact (value_digit ⟨b.toNat/16, by omega⟩).2
  · rw [List.mem_singleton.mp hb]
    exact (value_digit ⟨b.toNat%16, by omega⟩).2

theorem decode_encode (bytes : List UInt8) : decode (encode bytes) = bytes := by
  induction bytes with
  | nil => rfl
  | cons b bytes ih =>
    have hlt := b.toNat_lt
    have hhigh := (value_digit ⟨b.toNat/16, by omega⟩).1
    have hlow := (value_digit ⟨b.toNat%16, by omega⟩).1
    dsimp only at hhigh hlow
    rw [encode_cons, decode, ih, hhigh, hlow, Nat.div_add_mod, UInt8.ofNat_toNat]

/-- A text of pairs of digits is the text of the bytes that it is read as. -/
theorem encode_decode (text : List Char) (n : ℕ) (hlength : text.length = 2*n)
    (hdigits : ∀ c ∈ text, isDigit c = true) :
    encode (decode text) = text ∧ (decode text).length = n := by
  induction n generalizing text with
  | zero =>
    rw [List.length_eq_zero_iff.mp hlength]
    exact ⟨rfl,rfl⟩
  | succ n ih =>
    match text, hlength with
    | high::low::text, hlength =>
      obtain ⟨x,rfl⟩ := exists_digit (hdigits high (by simp))
      obtain ⟨y,rfl⟩ := exists_digit (hdigits low (by simp))
      obtain ⟨htext,hn⟩ := ih text (by simp only [List.length_cons] at hlength; omega)
        fun c hc => hdigits c (by simp [hc])
      have hbyte : (UInt8.ofNat (16*x.val+y.val)).toNat = 16*x.val+y.val := by
        rw [UInt8.toNat_ofNat', Nat.mod_eq_of_lt]
        have := x.isLt
        have := y.isLt
        omega
      have hhigh : (16*x.val+y.val)/16 = x.val := by omega
      have hlow : (16*x.val+y.val)%16 = y.val := by omega
      rw [decode, (value_digit x).1, (value_digit y).1, encode_cons, hbyte, hhigh, hlow, htext,
        List.length_cons, hn]
      exact ⟨rfl,rfl⟩

end HexText

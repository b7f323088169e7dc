import Mathlib

namespace BigEndian

/-- The `n` low bytes of a number. -/
def bytes : ℕ → ℕ → List UInt8
  | 0, _ => []
  | n+1, v => UInt8.ofNat (v/256^n) :: bytes n v

def value : List UInt8 → ℕ
  | [] => 0
  | b :: bs => b.toNat*256^bs.length+value bs

theorem length_bytes (n v : ℕ) : (bytes n v).length = n := by
  induction n with
  | zero => rfl
  | succ n ih => rw [bytes, List.length_cons, ih]

theorem value_lt (bs : List UInt8) : value bs < 256^bs.length := by
  induction bs with
  | nil => exact Nat.one_pos
  | cons b bs ih =>
    have hb : b.toNat+1 ≤ 256 := b.toNat_lt
    calc value (b :: bs) < b.toNat*256^bs.length+256^bs.length := Nat.add_lt_add_left ih _
      _ = (b.toNat+1)*256^bs.length := by ring
      _ ≤ 256*256^bs.length := Nat.mul_le_mul_right _ hb
      _ = 256^(b :: bs).length := by rw [List.length_cons, pow_succ, Nat.mul_comm]

theorem value_bytes_mod (n v : ℕ) : value (bytes n v) = v%256^n := by
  induction n with
  | zero => rw [pow_zero, Nat.mod_one]; rfl
  | succ n ih =>
    rw [bytes, value, length_bytes, ih, UInt8.toNat_ofNat']
    calc v/256^n%2^8*256^n+v%256^n = v%256^n+256^n*(v/256^n%256) := by
          rw [Nat.add_comm, Nat.mul_comm]
          rfl
      _ = v%(256^n*256) := (Nat.mod_mul).symm
      _ = v%256^(n+1) := by rw [pow_succ]

theorem value_bytes (n v : ℕ) (h : v < 256^n) : value (bytes n v) = v := by
  rw [value_bytes_mod, Nat.mod_eq_of_lt h]

/-- Only the low bytes of a number count. -/
theorem bytes_add_mul (n v k : ℕ) : bytes n (v+k*256^n) = bytes n v := by
  induction n generalizing k with
  | zero => rfl
  | succ n ih =>
    have hlow : v+k*256^(n+1) = v+k*256*256^n := by ring
    rw [bytes, bytes, hlow, ih (k*256)]
    congr 1
    apply UInt8.toNat_inj.mp
    rw [UInt8.toNat_ofNat', UInt8.toNat_ofNat', Nat.add_mul_div_right _ _ (by positivity)]
    omega

theorem bytes_value (bs : List UInt8) : bytes bs.length (value bs) = bs := by
  induction bs with
  | nil => rfl
  | cons b bs ih =>
    rw [List.length_cons, bytes, value]
    congr 1
    · apply UInt8.toNat_inj.mp
      rw [UInt8.toNat_ofNat', Nat.mul_comm, Nat.mul_add_div (by positivity),
        Nat.div_eq_of_lt (value_lt bs), Nat.add_zero]
      exact Nat.mod_eq_of_lt b.toNat_lt
    · rw [Nat.add_comm, bytes_add_mul, ih]

/-- The bytes that a number is shifted into: `(v >> 8*(n-1)) & 0xff`, ..., `v & 0xff`. -/
def stored {w : ℕ} (shifted : ℕ → BitVec w) : ℕ → List UInt8
  | 0 => []
  | n+1 => UInt8.ofBitVec ((shifted (8*n)).setWidth 8) :: stored shifted n

theorem two_pow_eight_mul (n : ℕ) : 2^(8*n) = 256^n := by
  rw [pow_mul]
  rfl

theorem stored_ushiftRight {w : ℕ} (v : BitVec w) (n : ℕ) :
    stored (fun s => v >>> s) n = bytes n v.toNat := by
  induction n with
  | zero => rfl
  | succ n ih =>
    rw [stored, bytes, ih]
    congr 1
    apply UInt8.toNat_inj.mp
    rw [UInt8.toNat_ofNat', ← two_pow_eight_mul, ← Nat.shiftRight_eq_div_pow]
    show ((v >>> (8*n)).setWidth 8).toNat = _
    rw [BitVec.toNat_setWidth, BitVec.toNat_ushiftRight]

/-- The copies of the sign that an arithmetic shift brings in are cut off again. -/
theorem stored_sshiftRight {w : ℕ} (v : BitVec w) (n : ℕ) (h : 8*n ≤ w) :
    stored (fun s => v.sshiftRight s) n = bytes n v.toNat := by
  rw [← stored_ushiftRight]
  induction n with
  | zero => rfl
  | succ n ih =>
    rw [stored, stored, ih (by omega)]
    congr 2
    apply BitVec.eq_of_getLsbD_eq
    intro i hi
    have hin : 8*n+i < w := by omega
    have hsmall : ¬w ≤ i := by omega
    simp [BitVec.getLsbD_sshiftRight, hi, hin, hsmall]

/-- The bytes joined again: `(b << 8*(n-1)) | ... | b`. -/
def joined (w : ℕ) : List UInt8 → BitVec w
  | [] => 0
  | b :: bs => (b.toBitVec.setWidth w <<< (8*bs.length)) ||| joined w bs

theorem toNat_joined (w : ℕ) (bs : List UInt8) (h : 8*bs.length ≤ w) :
    (joined w bs).toNat = value bs := by
  induction bs with
  | nil => exact BitVec.toNat_zero
  | cons b bs ih =>
    rw [List.length_cons] at h
    have hb : b.toNat < 2^8 := b.toNat_lt
    have hlow := value_lt bs
    rw [← two_pow_eight_mul] at hlow
    have hsmall : b.toNat < 2^w := lt_of_lt_of_le hb (Nat.pow_le_pow_right (by decide) (by omega))
    have hfit : b.toNat*2^(8*bs.length) < 2^w := by
      calc b.toNat*2^(8*bs.length) < 2^8*2^(8*bs.length) :=
            Nat.mul_lt_mul_of_pos_right hb (by positivity)
        _ = 2^(8+8*bs.length) := (pow_add 2 8 _).symm
        _ ≤ 2^w := Nat.pow_le_pow_right (by decide) (by omega)
    rw [joined, value, BitVec.toNat_or, ih (by omega), BitVec.toNat_shiftLeft, BitVec.toNat_setWidth]
    rw [show b.toBitVec.toNat = b.toNat from rfl, Nat.mod_eq_of_lt hsmall, Nat.shiftLeft_eq,
      Nat.mod_eq_of_lt hfit, ← Nat.shiftLeft_eq, ← Nat.shiftLeft_add_eq_or_of_lt hlow,
      Nat.shiftLeft_eq, two_pow_eight_mul]

end BigEndian

import Mathlib.Data.Nat.Basic

namespace PrefixMask

variable {w : ℕ}

/-- The word with its first `k` bits set. -/
def mask (w k : ℕ) : BitVec w := BitVec.allOnes w <<< (w-k)

theorem getMsbD_mask (k i : ℕ) : (mask w k).getMsbD i = decide (i < k ∧ i < w) := by
  rw [mask, BitVec.getMsbD_shiftLeft, BitVec.getMsbD_allOnes, decide_eq_decide]
  omega

/-- Words are equal under a mask when their first bits agree. -/
theorem and_mask_eq_iff (x y : BitVec w) (k : ℕ) :
    x &&& mask w k = y &&& mask w k ↔ ∀ i < k, x.getMsbD i = y.getMsbD i := by
  constructor
  · intro h i hi
    have hbit := congrArg (fun z : BitVec w => z.getMsbD i) h
    simp only [BitVec.getMsbD_and, getMsbD_mask] at hbit
    by_cases hw : i < w
    · simpa [hi, hw] using hbit
    · rw [BitVec.getMsbD_of_ge x i (by omega), BitVec.getMsbD_of_ge y i (by omega)]
  · intro h
    apply BitVec.eq_of_getMsbD_eq
    intro i hi
    rw [BitVec.getMsbD_and, BitVec.getMsbD_and, getMsbD_mask]
    by_cases hk : i < k
    · rw [h i hk]
    · simp [hk]

/-- The difference of two words is zero under a mask when their first bits agree. -/
theorem xor_and_mask_eq_zero (x y : BitVec w) (k : ℕ) :
    (x ^^^ y) &&& mask w k = 0#w ↔ ∀ i < k, x.getMsbD i = y.getMsbD i := by
  rw [← BitVec.zero_and (x := mask w k), and_mask_eq_iff]
  simp [BitVec.getMsbD_xor]

/-- A word of four bytes with its bytes in the other order. -/
def byteSwap (x : BitVec 32) : BitVec 32 :=
  x.extractLsb' 0 8 ++ (x.extractLsb' 8 8 ++ (x.extractLsb' 16 8 ++ x.extractLsb' 24 8))

theorem byteSwap_and (x y : BitVec 32) : byteSwap (x &&& y) = byteSwap x &&& byteSwap y := by
  simp only [byteSwap, BitVec.extractLsb'_and]
  rw [← BitVec.and_append, ← BitVec.and_append, ← BitVec.and_append]

theorem byteSwap_xor (x y : BitVec 32) : byteSwap (x ^^^ y) = byteSwap x ^^^ byteSwap y := by
  simp only [byteSwap, BitVec.extractLsb'_xor]
  rw [← BitVec.xor_append, ← BitVec.xor_append, ← BitVec.xor_append]

theorem getLsbD_byteSwap (x : BitVec 32) {i : ℕ} (hi : i < 32) :
    (byteSwap x).getLsbD i = x.getLsbD (24-8*(i/8)+i%8) := by
  rw [byteSwap]
  simp only [BitVec.getLsbD_append, BitVec.getLsbD_extractLsb']
  -- In which of the four bytes the bit is.
  have hbyte : i/8 = 0 ∨ i/8 = 1 ∨ i/8 = 2 ∨ i/8 = 3 := by omega
  rcases hbyte with h | h | h | h
  · rw [if_pos (by omega), if_pos (by omega), if_pos (by omega), decide_eq_true (by omega),
      Bool.true_and]
    exact congrArg _ (by omega)
  · rw [if_pos (by omega), if_pos (by omega), if_neg (by omega), decide_eq_true (by omega),
      Bool.true_and]
    exact congrArg _ (by omega)
  · rw [if_pos (by omega), if_neg (by omega), decide_eq_true (by omega), Bool.true_and]
    exact congrArg _ (by omega)
  · rw [if_neg (by omega), decide_eq_true (by omega), Bool.true_and]
    exact congrArg _ (by omega)

theorem byteSwap_byteSwap (x : BitVec 32) : byteSwap (byteSwap x) = x := by
  apply BitVec.eq_of_getLsbD_eq
  intro i hi
  rw [getLsbD_byteSwap _ hi, getLsbD_byteSwap _ (by omega)]
  exact congrArg _ (by omega)

theorem byteSwap_zero : byteSwap 0#32 = 0#32 := by decide

end PrefixMask

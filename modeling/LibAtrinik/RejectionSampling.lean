import Mathlib.Data.Int.CardIntervalMod
import Mathlib.Data.Set.Card

namespace RejectionSampling

variable {w : ℕ}

/-- The first word that is not rejected. -/
def threshold (s : BitVec w) : BitVec w := -s % s

def Accepted (s value : BitVec w) : Prop := threshold s ≤ value

section Span

variable {s : BitVec w} (hs : 0 < s.toNat)
include hs

/-- The negation before the division leaves the remainder that `2^w` has. -/
theorem threshold_toNat : (threshold s).toNat = 2^w % s.toNat := by
  have hlt := s.isLt
  calc (threshold s).toNat = (2^w-s.toNat) % 2^w % s.toNat := by
        rw [threshold, BitVec.toNat_umod, BitVec.toNat_neg]
    _ = (2^w-s.toNat) % s.toNat := by
        rw [Nat.mod_eq_of_lt (Nat.sub_lt (Nat.two_pow_pos w) hs)]
    _ = 2^w % s.toNat := (Nat.mod_eq_sub_mod hlt.le).symm

theorem threshold_lt : (threshold s).toNat < s.toNat := by
  rw [threshold_toNat hs]
  exact Nat.mod_lt _ hs

end Span

section Count

variable {s : BitVec w} (hs : 0 < s.toNat)
include hs

end Count

end RejectionSampling

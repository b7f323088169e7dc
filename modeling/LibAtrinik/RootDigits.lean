import Mathlib.Algebra.Order.Ring.Nat
import Mathlib.Tactic.Ring
import Mathlib.Tactic.Linarith

namespace RootDigits

variable {n m k root : ℕ}

/-- With `k` of `m` digits left, `root` is a root from below, and no number of `m` digits that is
one is further away than these digits can make up for. -/
structure Extracts (n m k root : ℕ) : Prop where
  below : root*root ≤ n
  digits : root+2^k ≤ 2^m
  above : ∀ r < 2^m, r*r ≤ n → r < root+2^k

theorem Extracts.start (n m : ℕ) : Extracts n m m 0 where
  below := Nat.zero_le n
  digits := (Nat.zero_add _).le
  above r hr _ := by rwa [Nat.zero_add]

/-- What is subtracted from the remainder when the next digit is one. -/
theorem square_next (root k : ℕ) :
    (root+2^k)*(root+2^k) = root*root+(root*2^(k+1)+4^k) := by
  have hfour : (4 : ℕ)^k = 2^k*2^k := by rw [← Nat.mul_pow]
  rw [hfour, pow_succ]
  ring

/-- The next digit is one. -/
theorem Extracts.take (h : Extracts n m (k+1) root) (hle : (root+2^k)*(root+2^k) ≤ n) :
    Extracts n m k (root+2^k) where
  below := hle
  digits := by
    have := h.digits
    rw [pow_succ] at this
    omega
  above r hr hsquare := by
    have := h.above r hr hsquare
    rw [pow_succ] at this
    omega

/-- The next digit is zero. -/
theorem Extracts.leave (h : Extracts n m (k+1) root) (hlt : n < (root+2^k)*(root+2^k)) :
    Extracts n m k root where
  below := h.below
  digits := by
    have := h.digits
    rw [pow_succ] at this
    omega
  above r _ hsquare := by
    by_contra hr
    have hr : root+2^k ≤ r := by omega
    exact absurd (hsquare.trans_lt hlt) (by have := Nat.mul_le_mul hr hr; omega)

/-- When all digits are taken, the result is the root of the number exactly if the number has at
most twice as many digits. -/
theorem Extracts.root_iff (h : Extracts n m 0 root) :
    (root*root ≤ n ∧ n < (root+1)*(root+1)) ↔ n < 2^m*2^m := by
  have hdigits : root+1 ≤ 2^m := h.digits
  constructor
  · intro hroot
    exact hroot.2.trans_le (Nat.mul_le_mul hdigits hdigits)
  · intro hn
    refine ⟨h.below, ?_⟩
    by_contra hle
    have hle : (root+1)*(root+1) ≤ n := by omega
    rcases Nat.lt_or_ge (root+1) (2^m) with hlt | hge
    · exact Nat.lt_irrefl _ (h.above _ hlt hle)
    · have := Nat.mul_le_mul hge hge
      omega

end RootDigits

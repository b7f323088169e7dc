import Mathlib.Data.Int.Basic
import Mathlib.Tactic.Ring

/-! Signed arithmetic in a width of bits in which an operation has no result when the exact one
does not fit, so that a computation with a result has overflowed nowhere. -/
namespace CheckedInt

/-- The values of a signed type of `w` bits. -/
def InRange (w : ℕ) (v : ℤ) : Prop := -2^(w-1) ≤ v ∧ v < 2^(w-1)

instance (w : ℕ) (v : ℤ) : Decidable (InRange w v) := instDecidableAnd

/-- The value itself, if the type holds it. -/
def fit (w : ℕ) (v : ℤ) : Option ℤ := if InRange w v then some v else none

def add (w : ℕ) (a b : ℤ) : Option ℤ := fit w (a+b)

def sub (w : ℕ) (a b : ℤ) : Option ℤ := fit w (a-b)

def mul (w : ℕ) (a b : ℤ) : Option ℤ := fit w (a*b)

def neg (w : ℕ) (a : ℤ) : Option ℤ := fit w (-a)

variable {w : ℕ} {a b : ℤ}

theorem fit_eq_some {v : ℤ} (h : InRange w v) : fit w v = some v := by
  rw [fit, if_pos h]

theorem add_eq (h : InRange w (a+b)) : add w a b = some (a+b) := by
  rw [add, fit_eq_some h]

theorem sub_eq (h : InRange w (a-b)) : sub w a b = some (a-b) := by
  rw [sub, fit_eq_some h]

theorem mul_eq (h : InRange w (a*b)) : mul w a b = some (a*b) := by
  rw [mul, fit_eq_some h]

theorem neg_eq (h : InRange w (-a)) : neg w a = some (-a) := by
  rw [neg, fit_eq_some h]

end CheckedInt

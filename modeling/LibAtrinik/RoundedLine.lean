import Mathlib.Data.Int.Basic
import Mathlib.Algebra.Order.Field.Rat
import Mathlib.Tactic.Linarith
import Mathlib.Tactic.Ring
import Mathlib.Tactic.FieldSimp

/-! The line from the origin to `(a, b)` for `0 ≤ b ≤ a`, as the nearest integer to `k*b/a` for
each `k`, and an error term from which the next of these integers is found by its sign alone. -/
namespace RoundedLine

variable {a b k : ℤ}

/-- The integer nearest to `k*b/a`, the upper one when there are two. -/
def height (a b k : ℤ) : ℤ := (2*b*k+a) / (2*a)

/-- What is missing, in units of `1/(2*a)`, for the height to rise in step `k+1`. -/
def error (a b k : ℤ) : ℤ := 2*b*(k+1)-a-2*a*height a b k

theorem height_eq (ha : 0 < a) {m : ℤ} (hlow : 2*a*m ≤ 2*b*k+a) (hhigh : 2*b*k+a < 2*a*m+2*a) :
    height a b k = m := by
  have h2 : 0 < 2*a := by omega
  apply le_antisymm
  · apply Int.le_of_lt_add_one
    rw [height, Int.ediv_lt_iff_lt_mul h2]
    linarith
  · rw [height, Int.le_ediv_iff_mul_le h2]
    linarith

theorem height_low (ha : 0 < a) : 2*a*height a b k ≤ 2*b*k+a :=
  Int.mul_ediv_self_le (by omega)

theorem height_high (ha : 0 < a) : 2*b*k+a < 2*a*height a b k+2*a := by
  have := Int.lt_mul_ediv_self_add (x := 2*b*k+a) (show 0 < 2*a by omega)
  rw [height]
  linarith

@[simp] theorem height_zero (ha : 0 ≤ a) : height a b 0 = 0 := by
  rcases ha.eq_or_lt with rfl | ha
  · simp [height]
  · exact height_eq ha (by omega) (by omega)

/-- The line ends in its end point. -/
theorem height_self (ha : 0 < a) : height a b a = b :=
  height_eq ha (by linarith) (by linarith)

/-- The sign of the error term decides whether the height rises. -/
theorem height_succ (ha : 0 < a) (hb : 0 ≤ b) (hba : b ≤ a) :
    height a b (k+1) = if 0 ≤ error a b k then height a b k+1 else height a b k := by
  have hlow := height_low (b := b) (k := k) ha
  have hhigh := height_high (b := b) (k := k) ha
  split_ifs with he <;> rw [error] at he <;> apply height_eq ha <;> linarith

theorem error_succ (ha : 0 < a) (hb : 0 ≤ b) (hba : b ≤ a) :
    error a b (k+1) = (if 0 ≤ error a b k then error a b k-2*a else error a b k)+2*b := by
  rw [error, height_succ ha hb hba]
  split_ifs <;> rw [error] <;> ring

theorem error_bounds (ha : 0 < a) :
    2*b-2*a ≤ error a b k ∧ error a b k < 2*b := by
  have hlow := height_low (b := b) (k := k) ha
  have hhigh := height_high (b := b) (k := k) ha
  rw [error]
  constructor <;> linarith

theorem height_nonneg (ha : 0 < a) (hb : 0 ≤ b) (hk : 0 ≤ k) : 0 ≤ height a b k := by
  have := mul_nonneg hb hk
  rw [height]
  exact Int.ediv_nonneg (by linarith) (by omega)

theorem height_le (ha : 0 < a) (hb : 0 ≤ b) (hk : k ≤ a) : height a b k ≤ b := by
  have hmono : 2*b*k+a ≤ 2*b*a+a := by
    have := mul_le_mul_of_nonneg_left hk hb
    linarith
  calc height a b k ≤ height a b a := Int.ediv_le_ediv (by omega) hmono
    _ = b := height_self ha

/-- Every height is as near to the line as an integer can be promised to be. -/
theorem height_near (ha : 0 < a) : |(height a b k : ℚ)-k*b/a| ≤ 1/2 := by
  have ha' : (0 : ℚ) < a := by exact_mod_cast ha
  have hlow : (2*a*height a b k : ℚ) ≤ 2*b*k+a := by exact_mod_cast height_low ha
  have hhigh : (2*b*k+a : ℚ) < 2*a*height a b k+2*a := by exact_mod_cast height_high ha
  have hdiv : (height a b k : ℚ)-k*b/a = (2*a*height a b k-2*b*k)/(2*a) := by
    field_simp
  rw [hdiv, abs_le]
  constructor
  · rw [le_div_iff₀ (by linarith)]
    linarith
  · rw [div_le_iff₀ (by linarith)]
    linarith

end RoundedLine

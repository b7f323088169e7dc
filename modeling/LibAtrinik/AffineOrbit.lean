import Mathlib.Algebra.Ring.Basic
import Mathlib.Logic.Function.Iterate
import Mathlib.Tactic.Ring
import Mathlib.Tactic.LinearCombination

namespace AffineOrbit

variable {R : Type*} [CommRing R]

def affine (a c x : R) : R := a*x+c

theorem affine_affine (a c a' c' x : R) :
    affine a' c' (affine a c x) = affine (a'*a) (a'*c+c') x := by
  simp only [affine]
  ring

/-- After `2^k` steps the map is one of the same form, with `k` more factors of two. -/
theorem iterate_two_pow (t s : R) (k : ℕ) :
    ∃ t' s', ∀ x, (affine (1+4*t) (1+2*s))^[2^k] x =
      affine (1+2^(k+2)*t') (2^k*(1+2*s')) x := by
  induction k with
  | zero =>
    refine ⟨t, s, fun x => ?_⟩
    rw [pow_zero, Function.iterate_one]
    norm_num
  | succ k ih =>
    obtain ⟨t', s', hk⟩ := ih
    refine ⟨t'+2^(k+1)*t'^2, s'+2^k*t'*(1+2*s'), fun x => ?_⟩
    -- twice as many steps are the map of `k` after itself
    rw [pow_succ, mul_two, Function.iterate_add_apply, hk, hk, affine_affine]
    simp only [affine]
    ring

/-- Where `2^(w+1)` is zero, half of a period adds the upper bit. -/
theorem iterate_half (t s x : R) (w : ℕ) (hw : (2 : R)^(w+1) = 0) :
    (affine (1+4*t) (1+2*s))^[2^w] x = x+2^w := by
  obtain ⟨t', s', h⟩ := iterate_two_pow t s w
  rw [h, affine]
  linear_combination (2*t'*x+s')*hw

end AffineOrbit

import LibAtrinik.CheckedInt
import LibAtrinik.RoundedLine
import Mathlib.Algebra.Order.Ring.Abs
import Mathlib.Tactic.LinearCombination

/-! The line drawing macros of `bresenham.h` on values of type `int`. A macro that would overflow
has no result. -/
namespace LibAtrinik.Bresenham

open CheckedInt RoundedLine

def INT_MAX : ℤ := 2^31-1

/-- The variables of a line: its current point and the outputs of `BRESENHAM_INIT`. -/
structure Line where
  x : ℤ
  y : ℤ
  fraction : ℤ
  stepx : ℤ
  stepy : ℤ
  dx2 : ℤ
  dy2 : ℤ
deriving DecidableEq, Repr

/-- What `BRESENHAM_INIT` does with the sign of a side: the doubled length and the step. -/
def initSide (d d2 : ℤ) : Option (ℤ × ℤ) :=
  if d < 0 then do
    let d2 ← neg 32 d2
    return (d2, -1)
  else return (d2, 1)

def initFraction (dx dy stepx stepy dx2 dy2 : ℤ) : Option ℤ :=
  if dx2 > dy2 then do
    let length ← mul 32 dx stepx
    sub 32 dy2 length
  else do
    let length ← mul 32 dy stepy
    sub 32 dx2 length

/-- `BRESENHAM_INIT` for a line that starts in the origin. -/
def bresenhamInit (dx dy : ℤ) : Option Line := do
  let dx2 ← mul 32 dx 2
  let dy2 ← mul 32 dy 2
  let (dy2, stepy) ← initSide dy dy2
  let (dx2, stepx) ← initSide dx dx2
  let fraction ← initFraction dx dy stepx stepy dx2 dy2
  return ⟨0, 0, fraction, stepx, stepy, dx2, dy2⟩

/-- The move along the shorter side, taken when the fraction has become nonnegative. -/
def stepMinor (v fraction step d2 : ℤ) : Option (ℤ × ℤ) :=
  if fraction ≥ 0 then do
    let v ← add 32 v step
    let fraction ← sub 32 fraction d2
    return (v, fraction)
  else return (v, fraction)

/-- `BRESENHAM_STEP`. -/
def bresenhamStep (line : Line) : Option Line :=
  if line.dx2 > line.dy2 then do
    let (y, fraction) ← stepMinor line.y line.fraction line.stepy line.dx2
    let x ← add 32 line.x line.stepx
    let fraction ← add 32 fraction line.dy2
    return { line with x := x, y := y, fraction := fraction }
  else do
    let (x, fraction) ← stepMinor line.x line.fraction line.stepx line.dy2
    let y ← add 32 line.y line.stepy
    let fraction ← add 32 fraction line.dx2
    return { line with x := x, y := y, fraction := fraction }

/-- `BRESENHAM_INIT` and then `k` times `BRESENHAM_STEP`. -/
def bresenhamRun (dx dy : ℤ) : ℕ → Option Line
  | 0 => bresenhamInit dx dy
  | k+1 => (bresenhamRun dx dy k).bind bresenhamStep

/-- The coordinate along the axis on which the line is longer. -/
def majorOf (dx dy x y : ℤ) : ℤ := if |dy| < |dx| then x else y

def minorOf (dx dy x y : ℤ) : ℤ := if |dy| < |dx| then y else x

def direction (d : ℤ) : ℤ := if d < 0 then -1 else 1

theorem direction_mul_abs (d : ℤ) : direction d*|d| = d := by
  rw [direction]
  split_ifs with h
  · rw [abs_of_neg h]; ring
  · rw [abs_of_nonneg (by omega)]; ring

theorem mul_direction (d : ℤ) : d*direction d = |d| := by
  rw [direction]
  split_ifs with h
  · rw [abs_of_neg h]; ring
  · rw [abs_of_nonneg (by omega)]; ring

theorem abs_direction_mul (d v : ℤ) : |direction d*v| = |v| := by
  rw [direction]
  split_ifs <;> simp

section Side

variable {d : ℤ} (h : |d| ≤ INT_MAX/2)
include h

theorem double_eq : mul 32 d 2 = some (d*2) := by
  have hlow := neg_abs_le d
  have hhigh := le_abs_self d
  rw [INT_MAX] at h
  exact mul_eq ⟨by omega, by omega⟩

theorem initSide_eq : initSide d (d*2) = some (2*|d|, direction d) := by
  rw [INT_MAX] at h
  rw [initSide, direction]
  split_ifs with hd
  · rw [abs_of_neg hd] at h ⊢
    rw [neg_eq ⟨by omega, by omega⟩]
    simp [mul_comm]
  · rw [abs_of_nonneg (by omega), mul_comm]
    rfl

theorem length_eq : mul 32 d (direction d) = some |d| := by
  have hnonneg := abs_nonneg d
  rw [INT_MAX] at h
  rw [mul_eq, mul_direction]
  rw [mul_direction]
  exact ⟨by omega, by omega⟩

/-- A move along a side that does not leave it. -/
theorem move_eq {v : ℤ} (hv : 0 ≤ v) (hd : v < |d|) :
    add 32 (direction d*v) (direction d) = some (direction d*(v+1)) := by
  rw [INT_MAX] at h
  rw [mul_add, mul_one, add_eq]
  rw [direction]
  split_ifs <;> exact ⟨by omega, by omega⟩

/-- The move along the shorter side `d`, and the error term of the next point. -/
theorem stepMinor_eq {a k : ℤ} (ha : |d| ≤ a) (hlimit : a ≤ INT_MAX/2) (hk : 0 ≤ k) (hka : k < a) :
    ∃ fraction,
      stepMinor (direction d*height a |d| k) (error a |d| k) (direction d) (2*a) =
        some (direction d*height a |d| (k+1), fraction) ∧
      add 32 fraction (2*|d|) = some (error a |d| (k+1)) := by
  have hpos : 0 < a := by omega
  have hd := abs_nonneg d
  obtain ⟨hlow, hhigh⟩ := error_bounds (b := |d|) (k := k) hpos
  have hheight := height_succ (k := k) hpos hd ha
  have herror := error_succ (k := k) hpos hd ha
  by_cases hf : error a |d| k ≥ 0
  · -- the point moves, and does not leave the shorter side
    rw [if_pos hf] at hheight herror
    have hle := height_le (k := k+1) hpos hd (by omega)
    have hmove := move_eq h (height_nonneg hpos hd hk) (by omega)
    rw [INT_MAX] at hlimit
    refine ⟨error a |d| k-2*a, ?_, ?_⟩
    · rw [stepMinor, if_pos hf, hmove, sub_eq ⟨by omega, by omega⟩, hheight]
      rfl
    · rw [herror, add_eq ⟨by omega, by omega⟩]
  · rw [if_neg hf] at hheight herror
    rw [INT_MAX] at hlimit
    refine ⟨error a |d| k, ?_, ?_⟩
    · rw [stepMinor, if_neg hf, hheight]
      rfl
    · rw [herror, add_eq ⟨by omega, by omega⟩]

end Side

/-- The line after `k` steps: the nearest points, and their error term. -/
def lineAt (dx dy k : ℤ) : Line :=
  if |dy| < |dx| then
    ⟨direction dx*k, direction dy*height |dx| |dy| k, error |dx| |dy| k,
      direction dx, direction dy, 2*|dx|, 2*|dy|⟩
  else
    ⟨direction dx*height |dy| |dx| k, direction dy*k, error |dy| |dx| k,
      direction dx, direction dy, 2*|dx|, 2*|dy|⟩

section Limits

variable {dx dy : ℤ} (hdx : |dx| ≤ INT_MAX/2) (hdy : |dy| ≤ INT_MAX/2)
include hdx hdy

theorem initFraction_eq :
    initFraction dx dy (direction dx) (direction dy) (2*|dx|) (2*|dy|) =
      some (lineAt dx dy 0).fraction := by
  have hx := abs_nonneg dx
  have hy := abs_nonneg dy
  rw [initFraction, length_eq hdx, length_eq hdy]
  rw [INT_MAX] at hdx hdy
  by_cases h : |dy| < |dx|
  · rw [if_pos (by omega), Option.bind_eq_bind, Option.bind_some, sub_eq ⟨by omega, by omega⟩,
      lineAt, if_pos h, error, height_zero hx]
    simp
  · rw [if_neg (by omega), Option.bind_eq_bind, Option.bind_some, sub_eq ⟨by omega, by omega⟩,
      lineAt, if_neg h, error, height_zero hy]
    simp

theorem bresenhamInit_eq : bresenhamInit dx dy = some (lineAt dx dy 0) := by
  have hx := height_zero (b := |dy|) (abs_nonneg dx)
  have hy := height_zero (b := |dx|) (abs_nonneg dy)
  simp only [bresenhamInit, double_eq hdx, double_eq hdy, initSide_eq hdx, initSide_eq hdy,
    initFraction_eq hdx hdy, Option.bind_eq_bind, Option.bind_some]
  by_cases h : |dy| < |dx|
  · simp [lineAt, h, hx]
  · simp [lineAt, h, hy]

theorem bresenhamStep_eq {k : ℤ} (hk : 0 ≤ k) (hkn : k < max |dx| |dy|) :
    bresenhamStep (lineAt dx dy k) = some (lineAt dx dy (k+1)) := by
  by_cases h : |dy| < |dx|
  · rw [max_eq_left h.le] at hkn
    obtain ⟨fraction, hminor, hfraction⟩ := stepMinor_eq hdy h.le hdx hk hkn
    have hmajor := move_eq hdx hk hkn
    simp [bresenhamStep, lineAt, h, hminor, hfraction, hmajor]
  · rw [max_eq_right (by omega)] at hkn
    obtain ⟨fraction, hminor, hfraction⟩ := stepMinor_eq hdx (by omega) hdy hk hkn
    have hmajor := move_eq hdy hk hkn
    simp [bresenhamStep, lineAt, h, hminor, hfraction, hmajor]

theorem bresenhamRun_eq (k : ℕ) (hk : (k : ℤ) ≤ max |dx| |dy|) :
    bresenhamRun dx dy k = some (lineAt dx dy k) := by
  induction k with
  | zero => exact bresenhamInit_eq hdx hdy
  | succ k ih =>
    push_cast at hk
    rw [bresenhamRun, ih (by omega), Option.bind_some,
      bresenhamStep_eq hdx hdy (by omega) (by omega)]
    rfl

end Limits

/-- A step from `v` to `v'` stays between `v` and `d`. -/
def Towards (d v v' : ℤ) : Prop := v ≤ v' ∧ v' ≤ d ∨ d ≤ v' ∧ v' ≤ v

theorem towards_direction {d v v' : ℤ} (hv : v ≤ v') (hd : v' ≤ |d|) :
    Towards d (direction d*v) (direction d*v') := by
  rw [direction]
  split_ifs with h
  · rw [abs_of_neg h] at hd
    exact Or.inr ⟨by omega, by omega⟩
  · rw [abs_of_nonneg (by omega)] at hd
    exact Or.inl ⟨by omega, by omega⟩

/-- A step moves by one along the longer side, and comes nearer to its end. -/
theorem lineAt_major {dx dy k : ℤ} (hkn : k < max |dx| |dy|) :
    |majorOf dx dy (lineAt dx dy (k+1)).x (lineAt dx dy (k+1)).y-
      majorOf dx dy (lineAt dx dy k).x (lineAt dx dy k).y| = 1 ∧
    Towards (majorOf dx dy dx dy) (majorOf dx dy (lineAt dx dy k).x (lineAt dx dy k).y)
      (majorOf dx dy (lineAt dx dy (k+1)).x (lineAt dx dy (k+1)).y) := by
  have hone (d : ℤ) : |direction d*(k+1)-direction d*k| = 1 := by
    rw [← mul_sub, abs_direction_mul]
    simp
  by_cases h : |dy| < |dx|
  · rw [max_eq_left h.le] at hkn
    simp only [majorOf, lineAt, h, ↓reduceIte]
    exact ⟨hone dx, towards_direction (by omega) (by omega)⟩
  · rw [max_eq_right (by omega)] at hkn
    simp only [majorOf, lineAt, h, ↓reduceIte]
    exact ⟨hone dy, towards_direction (by omega) (by omega)⟩

/-- The move of a step along the shorter side. -/
theorem minor_move {a d k : ℤ} (ha : |d| ≤ a) (hk : 0 ≤ k) (hka : k < a) :
    |direction d*height a |d| (k+1)-direction d*height a |d| k| ≤ 1 ∧
    Towards d (direction d*height a |d| k) (direction d*height a |d| (k+1)) := by
  have hpos : 0 < a := by omega
  have hle := height_le (k := k+1) hpos (abs_nonneg d) (by omega)
  have hrise : height a |d| k ≤ height a |d| (k+1) ∧ height a |d| (k+1) ≤ height a |d| k+1 := by
    rw [height_succ hpos (abs_nonneg d) ha]
    split_ifs <;> omega
  refine ⟨?_, towards_direction hrise.1 hle⟩
  rw [← mul_sub, abs_direction_mul, abs_of_nonneg (by omega)]
  omega

theorem lineAt_minor {dx dy k : ℤ} (hk : 0 ≤ k) (hkn : k < max |dx| |dy|) :
    |minorOf dx dy (lineAt dx dy (k+1)).x (lineAt dx dy (k+1)).y-
      minorOf dx dy (lineAt dx dy k).x (lineAt dx dy k).y| ≤ 1 ∧
    Towards (minorOf dx dy dx dy) (minorOf dx dy (lineAt dx dy k).x (lineAt dx dy k).y)
      (minorOf dx dy (lineAt dx dy (k+1)).x (lineAt dx dy (k+1)).y) := by
  by_cases h : |dy| < |dx|
  · rw [max_eq_left h.le] at hkn
    simp only [minorOf, lineAt, h, ↓reduceIte]
    exact minor_move h.le hk hkn
  · rw [max_eq_right (by omega)] at hkn
    simp only [minorOf, lineAt, h, ↓reduceIte]
    exact minor_move (by omega) hk hkn

/-- The shorter side after `k` steps is as near to the line as an integer can be promised to be. -/
theorem side_near {a d k : ℤ} (ha : |d| ≤ a) (hk : 0 ≤ k) (hka : k ≤ a) :
    |((direction d*height a |d| k : ℤ) : ℚ)-k*d/a| ≤ 1/2 := by
  rcases (abs_nonneg d |>.trans ha).eq_or_lt with rfl | hpos
  · obtain rfl : k = 0 := by omega
    simp
  · have hd : (d : ℚ) = ((direction d*|d| : ℤ) : ℚ) := by rw [direction_mul_abs]
    have hfactor : ((direction d*height a |d| k : ℤ) : ℚ)-k*d/a =
        direction d*((height a |d| k : ℚ)-k*(|d| : ℤ)/a) := by
      rw [Int.cast_mul] at hd ⊢
      linear_combination (-(k : ℚ)/a)*hd
    have hunit : |(direction d : ℚ)| = 1 := by
      rw [direction]
      split_ifs <;> simp
    rw [hfactor, abs_mul, hunit, one_mul]
    exact height_near hpos

theorem lineAt_near (dx dy k : ℤ) (hk : 0 ≤ k) (hkn : k ≤ max |dx| |dy|) :
    |(minorOf dx dy (lineAt dx dy k).x (lineAt dx dy k).y : ℚ)-
      k*minorOf dx dy dx dy/(max |dx| |dy| : ℤ)| ≤ 1/2 := by
  by_cases h : |dy| < |dx|
  · rw [max_eq_left h.le] at hkn ⊢
    simp only [minorOf, lineAt, h, ↓reduceIte]
    exact side_near h.le hk hkn
  · rw [max_eq_right (by omega)] at hkn ⊢
    simp only [minorOf, lineAt, h, ↓reduceIte]
    exact side_near (by omega) hk hkn

theorem lineAt_end (dx dy : ℤ) :
    (lineAt dx dy (max |dx| |dy|)).x = dx ∧ (lineAt dx dy (max |dx| |dy|)).y = dy := by
  have hself {a d : ℤ} (ha : |d| ≤ a) : direction d*height a |d| a = d := by
    rcases (abs_nonneg d |>.trans ha).eq_or_lt with rfl | hpos
    · obtain rfl : d = 0 := abs_eq_zero.mp (le_antisymm ha (abs_nonneg d))
      simp
    · rw [height_self hpos, direction_mul_abs]
  by_cases h : |dy| < |dx|
  · rw [max_eq_left h.le, lineAt, if_pos h]
    exact ⟨direction_mul_abs dx, hself h.le⟩
  · rw [max_eq_right (by omega), lineAt, if_neg h]
    exact ⟨hself (by omega), direction_mul_abs dy⟩

/-- Within the documented limit a line is drawn without overflow: step by step towards its end
along both axes, one along the longer one, never more than half a point away, and to its end. -/
theorem bresenham_line (dx dy : ℤ) (hdx : |dx| ≤ INT_MAX/2) (hdy : |dy| ≤ INT_MAX/2)
    (k : ℕ) (hk : (k : ℤ) ≤ max |dx| |dy|) :
    ∃ line, bresenhamRun dx dy k = some line ∧
      |(minorOf dx dy line.x line.y : ℚ)-k*minorOf dx dy dx dy/(max |dx| |dy| : ℤ)| ≤ 1/2 ∧
      ((k : ℤ) = max |dx| |dy| → line.x = dx ∧ line.y = dy) ∧
      ((k : ℤ) < max |dx| |dy| → ∃ next, bresenhamRun dx dy (k+1) = some next ∧
        bresenhamStep line = some next ∧
        |majorOf dx dy next.x next.y-majorOf dx dy line.x line.y| = 1 ∧
        Towards (majorOf dx dy dx dy) (majorOf dx dy line.x line.y) (majorOf dx dy next.x next.y) ∧
        |minorOf dx dy next.x next.y-minorOf dx dy line.x line.y| ≤ 1 ∧
        Towards (minorOf dx dy dx dy) (minorOf dx dy line.x line.y)
          (minorOf dx dy next.x next.y)) := by
  have hnonneg : (0 : ℤ) ≤ k := by omega
  refine ⟨lineAt dx dy k, bresenhamRun_eq hdx hdy k hk, ?_, ?_, ?_⟩
  · exact_mod_cast lineAt_near dx dy k hnonneg hk
  · intro hend
    rw [hend]
    exact lineAt_end dx dy
  · intro hkn
    obtain ⟨hone, hmajor⟩ := lineAt_major hkn
    obtain ⟨hle, hminor⟩ := lineAt_minor hnonneg hkn
    have hnext := bresenhamRun_eq hdx hdy (k+1) (by push_cast; omega)
    push_cast at hnext
    exact ⟨lineAt dx dy (k+1), hnext, bresenhamStep_eq hdx hdy hnonneg hkn,
      hone, hmajor, hle, hminor⟩

example : (bresenhamRun (-3) 7 7).map (fun line => (line.x, line.y)) = some (-3, 7) := by decide

/-- The line to `(-3, 7)` after its fourth step. -/
theorem bresenham_line_seven :
    |(-3 : ℤ)| ≤ INT_MAX/2 ∧ |(7 : ℤ)| ≤ INT_MAX/2 ∧ ((4 : ℕ) : ℤ) ≤ max |(-3 : ℤ)| |(7 : ℤ)| ∧
      ∃ line, bresenhamRun (-3) 7 4 = some line ∧
        |(minorOf (-3) 7 line.x line.y : ℚ)-(4 : ℕ)*minorOf (-3) 7 (-3) 7/
          (max |(-3 : ℤ)| |(7 : ℤ)| : ℤ)| ≤ 1/2 := by
  have hx : |(-3 : ℤ)| ≤ INT_MAX/2 := by decide
  have hy : |(7 : ℤ)| ≤ INT_MAX/2 := by decide
  have hk : ((4 : ℕ) : ℤ) ≤ max |(-3 : ℤ)| |(7 : ℤ)| := by decide
  obtain ⟨line, hrun, hnear, -⟩ := bresenham_line (-3) 7 hx hy 4 hk
  exact ⟨hx, hy, hk, line, hrun, hnear⟩

end LibAtrinik.Bresenham

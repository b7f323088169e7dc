import LibAtrinik.AffineOrbit
import LibAtrinik.Rng
import Mathlib.Data.BitVec

namespace LibAtrinik.Rng

open AffineOrbit CheckedInt RejectionSampling

/-- The congruential step is an affine map of the kind whose orbits are known. -/
theorem nextState_eq_affine :
    nextState = affine (1+4*1591034055961698251#64) (1+2*721347520444481703#64) := by
  have hfactor : (1+4*1591034055961698251#64 : BitVec 64) = 6364136223846793005#64 := by decide
  have hincrement : (1+2*721347520444481703#64 : BitVec 64) = 1442695040888963407#64 := by decide
  funext oldState
  rw [hfactor, hincrement, affine, nextState, mul_comm]

theorem two_pow_eq (k : ℕ) : (2 : BitVec 64)^k = BitVec.ofNat 64 (2^k) := by
  induction k with
  | zero => rfl
  | succ k ih =>
    rw [pow_succ, ih, pow_succ, BitVec.ofNat_mul]
    rfl

/-- Half a period later the upper bit of the state has changed, and no other one. -/
theorem nextState_half (oldState : BitVec 64) :
    nextState^[2^63] oldState = oldState+BitVec.ofNat 64 (2^63) := by
  have hzero : (2 : BitVec 64)^(63+1) = 0 := by
    rw [two_pow_eq]
    decide
  rw [nextState_eq_affine, iterate_half _ _ _ 63 hzero, two_pow_eq]

/-- A rotation of a word that is not zero is not zero. -/
theorem eq_zero_of_rotated {x : BitVec 32} {r : ℕ} (hr : r < 32)
    (h : (x >>> r) ||| (x <<< ((32-r) % 32)) = 0#32) : x = 0#32 := by
  apply BitVec.eq_of_getLsbD_eq
  intro i hi
  have hbit (j : ℕ) := congrArg (fun y : BitVec 32 => y.getLsbD j) h
  simp only [BitVec.getLsbD_or, BitVec.getLsbD_ushiftRight, BitVec.getLsbD_shiftLeft,
    BitVec.getLsbD_zero, Bool.or_eq_false_iff] at hbit
  rw [BitVec.getLsbD_zero]
  by_cases hir : r ≤ i
  -- every bit is shifted to one of the two words
  · have hlow := (hbit (i-r)).1
    rwa [Nat.add_sub_cancel' hir] at hlow
  · have hhigh := (hbit (i+(32-r))).2
    rw [Nat.mod_eq_of_lt (by omega), Nat.add_sub_cancel] at hhigh
    simpa [show i+(32-r) < 32 by omega] using hhigh

theorem rotation_lt (oldState : BitVec 64) : (rotation oldState).toNat < 32 := by
  have := oldState.isLt
  rw [rotation, BitVec.toNat_setWidth, BitVec.toNat_ushiftRight, Nat.shiftRight_eq_div_pow]
  omega

/-- The left shift of the rotation, for a rotation by less than the width. -/
theorem left_shift_eq (r : BitVec 32) (hr : r.toNat < 32) :
    (-r &&& 31#32).toNat = (32-r.toNat) % 32 := by
  have hmask : (31#32).toNat = 2^5-1 := rfl
  rw [BitVec.toNat_and, hmask, Nat.and_two_pow_sub_one_eq_mod, BitVec.toNat_neg]
  omega

theorem output_eq_zero {oldState : BitVec 64} (h : output oldState = 0#32) :
    xorShifted oldState = 0#32 := by
  have hr := rotation_lt oldState
  rw [output, BitVec.ushiftRight_eq', BitVec.shiftLeft_eq', left_shift_eq _ hr] at h
  exact eq_zero_of_rotated hr h

/-- Where the xor of the shifted state is zero, the upper bit equals the one 18 below it. -/
theorem bits_eq {oldState : BitVec 64} (h : xorShifted oldState = 0#32) :
    oldState.getLsbD 63 = oldState.getLsbD 45 := by
  have hbit := congrArg (fun x : BitVec 32 => x.getLsbD 18) h
  simpa [xorShifted, BitVec.getLsbD_setWidth] using hbit

/-- Adding the upper bit changes it, and no other one. -/
theorem bits_half (oldState : BitVec 64) :
    (oldState+BitVec.ofNat 64 (2^63)).getLsbD 63 = !oldState.getLsbD 63 ∧
    (oldState+BitVec.ofNat 64 (2^63)).getLsbD 45 = oldState.getLsbD 45 := by
  have hbit (i : ℕ) (hi : i < 64) : (oldState+BitVec.ofNat 64 (2^63)).getLsbD i =
      (2^63+oldState.toNat).testBit i := by
    rw [BitVec.getLsbD, BitVec.toNat_add, BitVec.toNat_ofNat, Nat.add_mod_mod,
      Nat.testBit_mod_two_pow, Nat.add_comm]
    simp [hi]
  constructor
  · rw [hbit 63 (by omega), Nat.testBit_two_pow_add_eq]
    rfl
  · rw [hbit 45 (by omega), Nat.testBit_two_pow_add_gt (by omega)]
    rfl

/-- Of two draws half a period apart one has an output. -/
theorem output_ne_zero (oldState : BitVec 64) :
    output oldState ≠ 0#32 ∨ output (nextState^[2^63] oldState) ≠ 0#32 := by
  by_contra hzero
  simp only [not_or, not_not] at hzero
  -- both outputs being zero would make the upper bit equal to one that has not changed
  have hnow := bits_eq (output_eq_zero hzero.1)
  have hthen := bits_eq (output_eq_zero hzero.2)
  rw [nextState_half, (bits_half oldState).1, (bits_half oldState).2, ← hnow] at hthen
  simp at hthen

/-- A value whose first half is not zero is not rejected. -/
theorem rejectRound_leave {threshold : BitVec 64} {rng : RngState}
    (hthreshold : threshold.toNat ≤ 2^32) (h : output rng.state ≠ 0#32) :
    rejectRound threshold rng = .inr (rngU64 rng) := by
  have hhigh : 1 ≤ (output rng.state).toNat := by
    have := mt BitVec.eq_of_toNat_eq h
    simp at this
    omega
  have hvalue : 2^32 ≤ (rngU64 rng).1.toNat := by
    simp only [rngU64, rngU32, BitVec.toNat_or]
    refine Nat.le_trans ?_ Nat.left_le_or
    have hlt := (output rng.state).isLt
    rw [BitVec.toNat_shiftLeft, BitVec.toNat_setWidth, Nat.shiftLeft_eq,
      Nat.mod_eq_of_lt (by omega), Nat.mod_eq_of_lt (by omega)]
    omega
  simp only [rejectRound, BitVec.lt_def]
  rw [if_neg (by omega)]

theorem rejectRound_continue {threshold : BitVec 64} {rng next : RngState}
    (h : rejectRound threshold rng = .inl next) : next.state = nextState^[2] rng.state := by
  simp only [rejectRound] at h
  split_ifs at h
  rw [← Sum.inl.inj h]
  rfl

/-- The loop is left at the latest by a draw whose first output is not zero. -/
theorem rejection_terminates {threshold : BitVec 64} (hthreshold : threshold.toNat ≤ 2^32)
    (n : ℕ) (rng : RngState) (h : output (nextState^[2*n] rng.state) ≠ 0#32) :
    ∃ drawn, FuelLoop.run (rejectRound threshold) (n+1) rng = some drawn := by
  induction n generalizing rng with
  | zero => exact ⟨_, FuelLoop.run_leave _ _ _ _ (rejectRound_leave hthreshold h)⟩
  | succ n ih =>
    cases hround : rejectRound threshold rng with
    | inr drawn => exact ⟨drawn, FuelLoop.run_leave _ _ _ _ hround⟩
    | inl next =>
      rw [FuelLoop.run_continue _ _ _ _ hround]
      apply ih
      rw [rejectRound_continue hround, ← Function.iterate_add_apply]
      exact h

theorem acceptedDraw_terminates (span : BitVec 64) (hpos : 0 < span.toNat)
    (hspan : span.toNat ≤ 2^32) (rng : RngState) :
    ∃ fuel ≤ 2^62+1, ∃ drawn, acceptedDraw fuel span rng = some drawn := by
  have hthreshold : (threshold span).toNat ≤ 2^32 := (threshold_lt hpos).le.trans hspan
  rcases output_ne_zero rng.state with h | h
  · exact ⟨1, by omega, rejection_terminates hthreshold 0 rng h⟩
  · exact ⟨2^62+1, le_rfl, rejection_terminates hthreshold (2^62) rng h⟩

/-- From every state of the stream the loops of `rng_range` and `rng_chance` are left. -/
theorem rng_terminates (rng : RngState) :
    (∀ min max : ℤ, InRange 32 min → InRange 32 max → min ≤ max →
      ∃ fuel ≤ 2^62+1, ∃ outcome, rngRange fuel rng min max = some outcome) ∧
    ∀ n : BitVec 32, 1 ≤ n.toNat → ∃ fuel ≤ 2^62+1, ∃ outcome,
      rngChance fuel rng n = some outcome := by
  refine ⟨fun min max hmin hmax hle => ?_, fun n hn => ?_⟩
  · obtain ⟨span, hsome, hspan⟩ := rangeSpan_eq hmin hmax hle
    have hlow := hmin.1
    have hhigh := hmax.2
    obtain ⟨fuel, hfuel, drawn, hdrawn⟩ :=
      acceptedDraw_terminates span (by omega) (by omega) rng
    have hrun := rngRange_eq hmin hmax hle fuel rng hsome hspan
    rw [hdrawn] at hrun
    exact ⟨fuel, hfuel, _, hrun⟩
  · have hlt := n.isLt
    have hspan : (n.setWidth 64).toNat = n.toNat := by
      rw [BitVec.toNat_setWidth]
      omega
    obtain ⟨fuel, hfuel, drawn, hdrawn⟩ :=
      acceptedDraw_terminates (n.setWidth 64) (by omega) (by omega) rng
    have hrun := rngChance_eq fuel rng hn
    rw [hdrawn] at hrun
    exact ⟨fuel, hfuel, _, hrun⟩

theorem rng_terminates_die :
    (∃ fuel ≤ 2^62+1, ∃ outcome, rngRange fuel ⟨0#64⟩ 1 6 = some outcome) ∧
    ∃ fuel ≤ 2^62+1, ∃ outcome, rngChance fuel ⟨0#64⟩ 6#32 = some outcome :=
  ⟨(rng_terminates ⟨0#64⟩).1 1 6 (by decide) (by decide) (by decide),
    (rng_terminates ⟨0#64⟩).2 6#32 (by decide)⟩

end LibAtrinik.Rng

import Mathlib.Data.Nat.Log
import LibAtrinik.FuelLoop
import LibAtrinik.Mempool

/-! Rounding up to a power of two in `math.c`, and the arrays that a memory pool gives out by it.
The power is an `unsigned int` that is shifted: from a count of 32 on the shift is undefined. -/
namespace LibAtrinik.PowerOfTwo

/-- The ways in which `nearest_pow_two_exp` has no result. -/
inductive Fault where
  | bounds
  | shift (count : ℕ)
  | endless
deriving DecidableEq, Repr

def expLookup : List ℕ :=
  [0, 0, 1, 2, 2, 3, 3, 3, 3, 4, 4, 4, 4, 4, 4, 4, 4,
   5, 5, 5, 5, 5, 5, 5, 5, 5, 5, 5, 5, 5, 5, 5, 5, 6,
   6, 6, 6, 6, 6, 6, 6, 6, 6, 6, 6, 6, 6, 6, 6, 6, 6,
   6, 6, 6, 6, 6, 6, 6, 6, 6, 6, 6, 6, 6, 6]

/-- `1U << count`. -/
def shiftOne (count : ℕ) : Except Fault (BitVec 32) :=
  if count < 32 then .ok (1#32 <<< count) else .error (.shift count)

/-- A round of the loop of `nearest_pow_two_exp`. -/
def expRound (n : BitVec 64) (i : ℕ) : ℕ ⊕ Except Fault ℕ :=
  match shiftOne i with
  | .error fault => .inr (.error fault)
  | .ok power => if power.setWidth 64 < n then .inl (i+1) else .inr (.ok i)

/-- `nearest_pow_two_exp`, where the loop does not run for more than `fuel` rounds. -/
def nearestPowTwoExp (fuel : ℕ) (n : BitVec 64) : Except Fault ℕ :=
  if n ≤ 64#64 then
    match expLookup[n.toNat]? with
    | some e => .ok e
    | none => .error .bounds
  else (FuelLoop.run (expRound n) fuel 7).getD (.error .endless)

/-- The assertion on `arraysize_exp` with which `mempool_get_chunk` and `mempool_return_chunk`
begin. -/
def assertExponent (arraysizeExp : ℕ) : Except Mempool.Fault Mempool.Exponent :=
  if h : arraysizeExp < 8 then .ok ⟨arraysizeExp, h⟩ else .error .assertion

/-- `mempool_get_chunk` at an exponent that it checks. -/
def getChunkAt (blocks : List ℕ) (s : Mempool.State) (pool arraysizeExp : ℕ) :
    Except Mempool.Fault (Mempool.Addr × Mempool.State) := do
  let e ← assertExponent arraysizeExp
  Mempool.mempoolGetChunk blocks s pool e

/-- `mempool_return_chunk` at an exponent that it checks. -/
def returnChunkAt (s : Mempool.State) (pool arraysizeExp : ℕ) (data : Mempool.Addr) :
    Except Mempool.Fault Mempool.State := do
  let e ← assertExponent arraysizeExp
  Mempool.mempoolReturnChunk s pool e data

/-- `mempool_get_array`. -/
def mempoolGetArray (fuel : ℕ) (blocks : List ℕ) (s : Mempool.State) (pool : ℕ)
    (arraysize : BitVec 64) :
    Except Fault (Except Mempool.Fault (Mempool.Addr × Mempool.State)) := do
  let e ← nearestPowTwoExp fuel arraysize
  return getChunkAt blocks s pool e

/-- `mempool_return_array`. -/
def mempoolReturnArray (fuel : ℕ) (s : Mempool.State) (pool : ℕ) (arraysize : BitVec 64)
    (data : Mempool.Addr) : Except Fault (Except Mempool.Fault Mempool.State) := do
  let e ← nearestPowTwoExp fuel arraysize
  return returnChunkAt s pool e data

theorem expLookup_eq : ∀ n < 65, expLookup[n]? = some (Nat.clog 2 n) := by decide

variable {n : BitVec 64} {i e : ℕ}

theorem shiftOne_of_lt (h : i < 32) :
    ∃ power, shiftOne i = .ok power ∧ (power.setWidth 64).toNat = 2^i := by
  refine ⟨1#32 <<< i, by rw [shiftOne, if_pos h], ?_⟩
  have hpow : 2^i < 2^32 := Nat.pow_lt_pow_right (by decide) h
  rw [BitVec.toNat_setWidth, BitVec.toNat_shiftLeft, Nat.shiftLeft_eq, BitVec.toNat_ofNat,
    Nat.mod_eq_of_lt (by decide : 1 < 2^32), Nat.one_mul, Nat.mod_eq_of_lt hpow,
    Nat.mod_eq_of_lt (by omega)]

theorem expRound_defined (h : i < 32) :
    expRound n i = if 2^i < n.toNat then .inl (i+1) else .inr (.ok i) := by
  obtain ⟨power,hshift,hpower⟩ := shiftOne_of_lt h
  rw [expRound, hshift]
  simp only [BitVec.lt_def, hpower]

theorem expRound_undefined (h : ¬ i < 32) : expRound n i = .inr (.error (.shift i)) := by
  rw [expRound, shiftOne, if_neg h]

/-- The loop goes on exactly below the upper logarithm. -/
theorem expRound_continue {next : ℕ} (h : expRound n i = .inl next) :
    next = i+1 ∧ i < Nat.clog 2 n.toNat ∧ i < 32 := by
  by_cases hi : i < 32
  · rw [expRound_defined hi] at h
    split at h
    · rename_i hlt
      exact ⟨(Sum.inl.inj h).symm, (Nat.lt_clog_iff_pow_lt (by decide)).mpr hlt, hi⟩
    · simp at h
  · rw [expRound_undefined hi] at h
    simp at h

theorem expRound_ok (h : expRound n i = .inr (.ok e)) :
    e = i ∧ Nat.clog 2 n.toNat ≤ i ∧ i < 32 := by
  by_cases hi : i < 32
  · rw [expRound_defined hi] at h
    split at h
    · simp at h
    · rename_i hle
      refine ⟨(Except.ok.inj (Sum.inr.inj h)).symm, ?_, hi⟩
      exact (Nat.clog_le_iff_le_pow (by decide)).mpr (not_lt.mp hle)
  · rw [expRound_undefined hi] at h
    simp at h

theorem expRound_error {fault : Fault} (h : expRound n i = .inr (.error fault)) :
    fault = .shift i ∧ 32 ≤ i := by
  by_cases hi : i < 32
  · rw [expRound_defined hi] at h
    split at h <;> simp at h
  · rw [expRound_undefined hi] at h
    exact ⟨(Except.error.inj (Sum.inr.inj h)).symm, not_lt.mp hi⟩

/-- The counter of the loop. -/
def Counting (n : BitVec 64) (i : ℕ) : Prop := i ≤ Nat.clog 2 n.toNat ∧ i ≤ 32

theorem Counting.start (h : ¬ n ≤ 64#64) : Counting n 7 := by
  refine ⟨(Nat.lt_clog_iff_pow_lt (by decide)).mpr ?_, by decide⟩
  have hlt : 64 < n.toNat := not_le.mp h
  exact hlt

theorem Counting.step {next : ℕ} (hround : expRound n i = .inl next) :
    Counting n next ∧ 32-next < 32-i := by
  obtain ⟨rfl,hclog,hi⟩ := expRound_continue hround
  exact ⟨⟨hclog,hi⟩, by omega⟩

/-- The loop ends with the upper logarithm, or at the first shift that is undefined. -/
theorem nearestPowTwoExp_ends (n : BitVec 64) :
    ∃ fuel, nearestPowTwoExp fuel n =
      if n.toNat ≤ 2^31 then .ok (Nat.clog 2 n.toNat) else .error (.shift 32) := by
  by_cases htable : n ≤ 64#64
  · have hn : n.toNat ≤ 64 := htable
    refine ⟨0, ?_⟩
    rw [nearestPowTwoExp, if_pos htable, expLookup_eq n.toNat (by omega), if_pos (by omega)]
  · obtain ⟨result,hresult⟩ := FuelLoop.run_terminates (expRound n) (Counting n) (32-·)
      (fun _ _ _ hround => Counting.step hround) 33 7 (.start htable) (by decide)
    obtain ⟨i,⟨hclog,hi⟩,hlast⟩ := FuelLoop.run_invariant _ (Counting n)
      (fun _ _ _ hround => (Counting.step hround).1) _ _ _ (.start htable) hresult
    have hpow : Nat.clog 2 n.toNat ≤ 31 ↔ n.toNat ≤ 2^31 := Nat.clog_le_iff_le_pow (by decide)
    refine ⟨33, ?_⟩
    rw [nearestPowTwoExp, if_neg htable, hresult, Option.getD_some]
    rcases result with fault | e
    · obtain ⟨rfl,hlow⟩ := expRound_error hlast
      rw [if_neg (by omega), show i = 32 by omega]
    · obtain ⟨rfl,hhigh,hlt⟩ := expRound_ok hlast
      rw [if_pos (by omega), show e = Nat.clog 2 n.toNat by omega]

/-- A result is the upper logarithm, and the shifts before it were defined. -/
theorem nearestPowTwoExp_ok {fuel : ℕ} (h : nearestPowTwoExp fuel n = .ok e) :
    e = Nat.clog 2 n.toNat ∧ n.toNat ≤ 2^31 := by
  by_cases htable : n ≤ 64#64
  · have hn : n.toNat ≤ 64 := htable
    rw [nearestPowTwoExp, if_pos htable, expLookup_eq n.toNat (by omega)] at h
    exact ⟨(Except.ok.inj h).symm, by omega⟩
  · rw [nearestPowTwoExp, if_neg htable] at h
    cases hrun : FuelLoop.run (expRound n) fuel 7 with
    | none =>
      rw [hrun] at h
      simp at h
    | some result =>
      rw [hrun, Option.getD_some] at h
      obtain ⟨i,⟨hclog,_⟩,hlast⟩ := FuelLoop.run_invariant _ (Counting n)
        (fun _ _ _ hround => (Counting.step hround).1) _ _ _ (.start htable) hrun
      rw [h] at hlast
      obtain ⟨rfl,hhigh,hlt⟩ := expRound_ok hlast
      exact ⟨by omega, (Nat.clog_le_iff_le_pow (by decide)).mp (by omega : _ ≤ 31)⟩

/-- The least power of two that is not below the number. -/
theorem clog_rounds (n : ℕ) :
    n ≤ 2^Nat.clog 2 n ∧ (Nat.clog 2 n = 0 ∨ 2^(Nat.clog 2 n-1) < n) := by
  refine ⟨Nat.le_pow_clog (by decide) n, ?_⟩
  rcases Nat.eq_zero_or_pos (Nat.clog 2 n) with hzero | hpos
  · exact Or.inl hzero
  · exact Or.inr ((Nat.lt_clog_iff_pow_lt (by decide)).mp (by omega))

/-- A size is rounded up, and the pool is called with the exponent of the power of two, exactly up
to the last power that an `unsigned int` holds. Above it the loop comes to a shift by 32. -/
theorem nearestPowTwoExp_rounds_iff (n : BitVec 64) :
    (∃ fuel e, nearestPowTwoExp fuel n = .ok e ∧
      (n.toNat ≤ 2^e ∧ (e = 0 ∨ 2^(e-1) < n.toNat)) ∧
      (∀ blocks s pool, mempoolGetArray fuel blocks s pool n = .ok (getChunkAt blocks s pool e)) ∧
      ∀ s pool data, mempoolReturnArray fuel s pool n data = .ok (returnChunkAt s pool e data)) ↔
    n.toNat ≤ 2^31 := by
  constructor
  · intro ⟨fuel,e,hexp,_⟩
    exact (nearestPowTwoExp_ok hexp).2
  · intro hn
    obtain ⟨fuel,hexp⟩ := nearestPowTwoExp_ends n
    rw [if_pos hn] at hexp
    refine ⟨fuel, Nat.clog 2 n.toNat, hexp, clog_rounds n.toNat, ?_, ?_⟩
    · intro blocks s pool
      rw [mempoolGetArray, hexp]
      rfl
    · intro s pool data
      rw [mempoolReturnArray, hexp]
      rfl

/-- One more than the last power is not rounded. -/
theorem nearestPowTwoExp_above_wrong :
    ¬ ∃ fuel e, nearestPowTwoExp fuel 0x80000001#64 = .ok e ∧
      (0x80000001#64).toNat ≤ 2^e ∧ (e = 0 ∨ 2^(e-1) < (0x80000001#64).toNat) := by
  intro ⟨fuel,e,hexp,_⟩
  exact absurd (nearestPowTwoExp_ok hexp).2 (by decide)

end LibAtrinik.PowerOfTwo

import LibAtrinik.FuelLoop
import LibAtrinik.RootDigits

namespace LibAtrinik.IntegerMath

open RootDigits

/-- A round of the loop of `isqrt` that looks for the first power of four. -/
def shrinkRound (op one : BitVec 64) : BitVec 64 ⊕ BitVec 64 :=
  if op < one then .inl (one >>> 2) else .inr one

/-- The variables of the loop of `isqrt` over the digits. -/
structure RootState where
  one : BitVec 64
  op : BitVec 64
  res : BitVec 64
deriving DecidableEq, Repr

/-- A round of that loop. -/
def digitRound (s : RootState) : RootState ⊕ BitVec 64 :=
  if s.one ≠ 0#64 then
    let s :=
      if s.res+s.one ≤ s.op then
        { s with op := s.op-(s.res+s.one), res := s.res+(s.one <<< 1) }
      else s
    .inl { s with res := s.res >>> 1, one := s.one >>> 2 }
  else .inr s.res

/-- `isqrt`, where neither loop runs for more than `fuel` rounds. -/
def isqrt (fuel : ℕ) (n : BitVec 64) : Option (BitVec 64) := do
  let one ← FuelLoop.run (shrinkRound n) fuel (1#64 <<< 30)
  FuelLoop.run digitRound fuel ⟨one, n, 0#64⟩

/-- `one` is the power of four of the next digit, of `k` that are left, or zero. -/
def IsDigit (k : ℕ) (one : BitVec 64) : Prop := k ≤ 16 ∧ one.toNat = 4^k/4

theorem IsDigit.start : IsDigit 16 (1#64 <<< 30) := ⟨le_rfl, by decide⟩

theorem IsDigit.shift {k : ℕ} {one : BitVec 64} (h : IsDigit (k+1) one) :
    IsDigit k (one >>> 2) := by
  obtain ⟨hk,hone⟩ := h
  refine ⟨by omega, ?_⟩
  rw [BitVec.toNat_ushiftRight, hone, Nat.shiftRight_eq_div_pow, pow_succ]
  omega

theorem IsDigit.toNat {k : ℕ} {one : BitVec 64} (h : IsDigit (k+1) one) : one.toNat = 4^k := by
  rw [h.2, pow_succ]
  omega

theorem IsDigit.shift_lt {k : ℕ} {one : BitVec 64} (h : IsDigit (k+1) one) :
    (one >>> 2).toNat < one.toNat := by
  have hpos : 0 < (4 : ℕ)^k := Nat.pow_pos (by decide)
  rw [h.shift.2, h.toNat]
  omega

/-- The digits that are left are known from the power of four. -/
theorem IsDigit.eq_zero {k : ℕ} {one : BitVec 64} (h : IsDigit k one) (hone : one = 0#64) :
    k = 0 := by
  rcases k with _ | k
  · rfl
  · have := h.toNat
    rw [hone] at this
    exact absurd this.symm (Nat.pow_pos (by decide)).ne'

theorem IsDigit.succ {k : ℕ} {one : BitVec 64} (h : IsDigit k one) (hone : one ≠ 0#64) :
    ∃ l, k = l+1 := by
  rcases k with _ | l
  · exact absurd (BitVec.eq_of_toNat_eq h.2) hone
  · exact ⟨l, rfl⟩

/-- Nothing is taken yet. -/
def Leading (n one : BitVec 64) : Prop := ∃ k, IsDigit k one ∧ Extracts n.toNat 16 k 0

theorem Leading.step {n one next : BitVec 64} (h : Leading n one)
    (hround : shrinkRound n one = .inl next) : Leading n next ∧ next.toNat < one.toNat := by
  obtain ⟨k,hdigit,hroot⟩ := h
  unfold shrinkRound at hround
  split at hround
  · rename_i hlt
    rw [Sum.inl.injEq] at hround
    subst hround
    obtain ⟨l,rfl⟩ := hdigit.succ (by rintro rfl; simp at hlt)
    refine ⟨⟨l, hdigit.shift, hroot.leave ?_⟩, hdigit.shift_lt⟩
    have hlt : n.toNat < one.toNat := hlt
    rw [hdigit.toNat] at hlt
    rw [Nat.zero_add, ← Nat.mul_pow]
    exact hlt
  · simp at hround

/-- `op` is what the square of the root leaves, and `res` is the root, shifted. -/
structure Digits (n : BitVec 64) (k root : ℕ) (s : RootState) : Prop where
  digit : IsDigit k s.one
  extracts : Extracts n.toNat 16 k root
  op : s.op.toNat+root*root = n.toNat
  res : s.res.toNat = root*2^k

variable {n : BitVec 64} {k root : ℕ} {s : RootState}

/-- What is compared with `op` does not wrap around. -/
theorem Digits.sum_toNat (h : Digits n (k+1) root s) :
    (s.res+s.one).toNat = root*2^(k+1)+4^k := by
  have hroot : root+2^(k+1) ≤ 2^16 := h.extracts.digits
  have hone : (4 : ℕ)^k ≤ 4^16 := Nat.pow_le_pow_right (by decide) (by have := h.digit.1; omega)
  have hres : root*2^(k+1) ≤ 2^16*2^16 :=
    Nat.mul_le_mul ((Nat.le_add_right _ _).trans hroot) ((Nat.le_add_left _ _).trans hroot)
  rw [BitVec.toNat_add, h.res, h.digit.toNat, Nat.mod_eq_of_lt (by omega)]

/-- The digit fits exactly if the source's comparison says so. -/
theorem Digits.fits_iff (h : Digits n (k+1) root s) :
    s.res+s.one ≤ s.op ↔ (root+2^k)*(root+2^k) ≤ n.toNat := by
  rw [BitVec.le_def, h.sum_toNat, square_next, ← h.op]
  omega

theorem Digits.take (h : Digits n (k+1) root s) (hfits : s.res+s.one ≤ s.op) :
    Digits n k (root+2^k)
      ⟨s.one >>> 2, s.op-(s.res+s.one), (s.res+(s.one <<< 1)) >>> 1⟩ where
  digit := h.digit.shift
  extracts := h.extracts.take (h.fits_iff.mp hfits)
  op := by
    have hle : (s.res+s.one).toNat ≤ s.op.toNat := hfits
    rw [BitVec.toNat_sub_of_le hfits, h.sum_toNat, square_next, ← h.op]
    rw [h.sum_toNat] at hle
    omega
  res := by
    have hroot : root+2^(k+1) ≤ 2^16 := h.extracts.digits
    have hone : (4 : ℕ)^k ≤ 4^16 := Nat.pow_le_pow_right (by decide) (by have := h.digit.1; omega)
    have hres : root*2^(k+1) ≤ 2^16*2^16 :=
      Nat.mul_le_mul ((Nat.le_add_right _ _).trans hroot) ((Nat.le_add_left _ _).trans hroot)
    have htwice : (s.one <<< 1).toNat = 2*4^k := by
      rw [BitVec.toNat_shiftLeft, h.digit.toNat, Nat.shiftLeft_eq, Nat.mod_eq_of_lt (by omega)]
      ring
    have hsum : (s.res+(s.one <<< 1)).toNat = 2*((root+2^k)*2^k) := by
      rw [BitVec.toNat_add, h.res, htwice, Nat.mod_eq_of_lt (by omega), Nat.add_mul,
        ← Nat.mul_pow]
      ring
    rw [BitVec.toNat_ushiftRight, hsum, Nat.shiftRight_eq_div_pow]
    omega

theorem Digits.leave (h : Digits n (k+1) root s) (hfits : ¬ s.res+s.one ≤ s.op) :
    Digits n k root { s with res := s.res >>> 1, one := s.one >>> 2 } where
  digit := h.digit.shift
  extracts := h.extracts.leave (not_le.mp fun hle => hfits (h.fits_iff.mpr hle))
  op := h.op
  res := by
    rw [BitVec.toNat_ushiftRight, h.res, Nat.shiftRight_eq_div_pow, pow_succ, ← Nat.mul_assoc]
    omega

/-- Some digits are left to be taken. -/
def Extracting (n : BitVec 64) (s : RootState) : Prop := ∃ k root, Digits n k root s

theorem Extracting.step {next : RootState} (h : Extracting n s)
    (hround : digitRound s = .inl next) : Extracting n next ∧ next.one.toNat < s.one.toNat := by
  obtain ⟨k,root,h⟩ := h
  unfold digitRound at hround
  split at hround
  · rename_i hone
    obtain ⟨l,rfl⟩ := h.digit.succ hone
    rw [Sum.inl.injEq] at hround
    subst hround
    split
    · rename_i hfits
      exact ⟨⟨l, root+2^l, h.take hfits⟩, h.digit.shift_lt⟩
    · rename_i hfits
      exact ⟨⟨l, root, h.leave hfits⟩, h.digit.shift_lt⟩
  · simp at hround

theorem Extracting.last {r : BitVec 64} (h : Extracting n s) (hround : digitRound s = .inr r) :
    Extracts n.toNat 16 0 r.toNat := by
  obtain ⟨k,root,h⟩ := h
  unfold digitRound at hround
  split at hround
  · simp at hround
  · rename_i hone
    obtain rfl := h.digit.eq_zero (not_not.mp hone)
    rw [Sum.inr.injEq] at hround
    rw [← hround, h.res, pow_zero, Nat.mul_one]
    exact h.extracts

/-- The digits are taken from the first power of four on. -/
theorem Leading.extracting {one : BitVec 64} (h : Leading n one) : Extracting n ⟨one, n, 0#64⟩ := by
  obtain ⟨k,hdigit,hroot⟩ := h
  exact ⟨k, 0, hdigit, hroot, rfl, (Nat.zero_mul _).symm⟩

theorem leading_start (n : BitVec 64) : Leading n (1#64 <<< 30) :=
  ⟨16, IsDigit.start, Extracts.start n.toNat 16⟩

theorem leading_run {fuel : ℕ} {one : BitVec 64}
    (hone : FuelLoop.run (shrinkRound n) fuel (1#64 <<< 30) = some one) : Leading n one := by
  obtain ⟨last,hlast,hleave⟩ := FuelLoop.run_invariant _ (Leading n)
    (fun _ _ ha hround => (ha.step hround).1) _ _ _ (leading_start n) hone
  have hsame : last = one := by
    unfold shrinkRound at hleave
    split at hleave
    · simp at hleave
    · exact Sum.inr.inj hleave
  exact hsame ▸ hlast

/-- Whatever is returned has sixteen digits, and no greater number of sixteen digits is a root from
below. -/
theorem isqrt_extracts {fuel : ℕ} {r : BitVec 64} (h : isqrt fuel n = some r) :
    Extracts n.toNat 16 0 r.toNat := by
  obtain ⟨one,hone,hres⟩ := Option.bind_eq_some_iff.mp h
  obtain ⟨s,hs,hend⟩ := FuelLoop.run_invariant _ (Extracting n)
    (fun _ _ ha hround => (ha.step hround).1) _ _ _ (leading_run hone).extracting hres
  exact hs.last hend

/-- Both loops end for every number. -/
theorem isqrt_ends (n : BitVec 64) : ∃ fuel r, isqrt fuel n = some r := by
  obtain ⟨one,hone⟩ := FuelLoop.run_terminates (shrinkRound n) (Leading n) BitVec.toNat
    (fun _ _ ha hround => ha.step hround) (2^64) _ (leading_start n) (BitVec.isLt _)
  obtain ⟨r,hr⟩ := FuelLoop.run_terminates digitRound (Extracting n) (fun s => s.one.toNat)
    (fun _ _ ha hround => ha.step hround) (2^64) _ (leading_run hone).extracting (BitVec.isLt _)
  exact ⟨2^64, r, Option.bind_eq_some_iff.mpr ⟨one,hone,hr⟩⟩

/-- The power of four starts at that of the sixteenth digit, and not at the highest of 64 bits, so
that the result is the root of the numbers below `2^32` only. -/
theorem isqrt_root_iff (n : BitVec 64) :
    (∃ fuel r, isqrt fuel n = some r ∧ r.toNat*r.toNat ≤ n.toNat ∧
      n.toNat < (r.toNat+1)*(r.toNat+1)) ↔ n.toNat < 2^32 := by
  have hpow : 2^16*2^16 = 2^32 := by decide
  constructor
  · intro ⟨fuel,r,hr,hroot⟩
    exact hpow ▸ (isqrt_extracts hr).root_iff.mp hroot
  · intro hn
    obtain ⟨fuel,r,hr⟩ := isqrt_ends n
    exact ⟨fuel, r, hr, (isqrt_extracts hr).root_iff.mpr (hpow ▸ hn)⟩

/-- The root of `2^32` is `2^16`, and what comes out is less. -/
theorem isqrt_two_pow_wrong :
    ¬ ∃ fuel r, isqrt fuel 0x100000000#64 = some r ∧
      r.toNat*r.toNat ≤ (0x100000000#64).toNat ∧
      (0x100000000#64).toNat < (r.toNat+1)*(r.toNat+1) := by
  intro ⟨fuel,r,hr,hroot⟩
  have hn := (isqrt_extracts hr).root_iff.mp hroot
  exact absurd hn (by decide)

end LibAtrinik.IntegerMath

import LibAtrinik.CheckedInt
import LibAtrinik.FuelLoop
import LibAtrinik.RejectionSampling

/-! The deterministic random number streams of `math.c`. The rejection loops run for a bounded
number of rounds; signed arithmetic that overflows, or a conversion that loses the value, has no
result. -/
namespace LibAtrinik.Rng

open CheckedInt RejectionSampling

/-- `rng_state_t`. -/
structure RngState where
  state : BitVec 64
deriving DecidableEq, Repr

/-- The state after a draw. -/
def nextState (oldState : BitVec 64) : BitVec 64 :=
  oldState*6364136223846793005#64+1442695040888963407#64

def xorShifted (oldState : BitVec 64) : BitVec 32 :=
  (((oldState >>> 18) ^^^ oldState) >>> 27).setWidth 32

def rotation (oldState : BitVec 64) : BitVec 32 := (oldState >>> 59).setWidth 32

/-- The output of a draw. -/
def output (oldState : BitVec 64) : BitVec 32 :=
  (xorShifted oldState >>> rotation oldState) |||
    (xorShifted oldState <<< (-rotation oldState &&& 31#32))

def rngU32 (rng : RngState) : BitVec 32 × RngState :=
  (output rng.state, ⟨nextState rng.state⟩)

def rngU64 (rng : RngState) : BitVec 64 × RngState :=
  let (high, rng) := rngU32 rng
  let (low, rng) := rngU32 rng
  ((high.setWidth 64 <<< 32) ||| low.setWidth 64, rng)

/-- One round of the rejection loops. -/
def rejectRound (threshold : BitVec 64) (rng : RngState) : RngState ⊕ (BitVec 64 × RngState) :=
  let drawn := rngU64 rng
  if drawn.1 < threshold then .inl drawn.2 else .inr drawn

/-- The first value that is not rejected, and the stream after it. -/
def acceptedDraw (fuel : ℕ) (span : BitVec 64) (rng : RngState) : Option (BitVec 64 × RngState) :=
  FuelLoop.run (rejectRound (threshold span)) fuel rng

/-- What a call returns, the stream it leaves and the error it logs. -/
structure Outcome where
  result : ℤ
  rng : RngState
  logged : Option String
deriving DecidableEq, Repr

def rangeSpan (min max : ℤ) : Option (BitVec 64) := do
  let difference ← sub 64 max min
  return BitVec.ofInt 64 difference+1#64

/-- The value that `rng_range` makes of an accepted draw. -/
def rangeResult (min : ℤ) (span value : BitVec 64) : Option ℤ := do
  let offset ← fit 64 (value % span).toNat
  let sum ← add 64 min offset
  fit 32 sum

def rngRange (fuel : ℕ) (rng : RngState) (min max : ℤ) : Option Outcome :=
  if max < min then
    some ⟨min, rng, some s!"Calling rng_range() with min={min} max={max}"⟩
  else do
    let span ← rangeSpan min max
    let (value, rng) ← acceptedDraw fuel span rng
    let result ← rangeResult min span value
    return ⟨result, rng, none⟩

def chanceResult (span value : BitVec 64) : ℤ := if value % span = 0#64 then 1 else 0

def rngChance (fuel : ℕ) (rng : RngState) (n : BitVec 32) : Option Outcome :=
  if n = 0#32 then some ⟨0, rng, some "Calling rng_chance() with n=0."⟩
  else do
    let span := n.setWidth 64
    let (value, rng) ← acceptedDraw fuel span rng
    return ⟨chanceResult span value, rng, none⟩

section Range

variable {min max : ℤ} (hmin : InRange 32 min) (hmax : InRange 32 max) (hle : min ≤ max)
include hmin hmax hle

/-- The span of a range is found without overflow, and at most `2^32`. -/
theorem rangeSpan_eq : ∃ span, rangeSpan min max = some span ∧ (span.toNat : ℤ) = max-min+1 := by
  obtain ⟨hmin, hmin'⟩ := hmin
  obtain ⟨hmax, hmax'⟩ := hmax
  refine ⟨_, by rw [rangeSpan, sub_eq ⟨by omega, by omega⟩]; rfl, ?_⟩
  rw [BitVec.toNat_add, BitVec.toNat_ofInt]
  norm_num
  omega

theorem rangeResult_eq {span : BitVec 64} (hspan : (span.toNat : ℤ) = max-min+1)
    (value : BitVec 64) :
    rangeResult min span value = some (min+(value.toNat % span.toNat : ℕ)) := by
  have hlt : value.toNat % span.toNat < span.toNat := Nat.mod_lt _ (by omega)
  obtain ⟨hmin, hmin'⟩ := hmin
  obtain ⟨hmax, hmax'⟩ := hmax
  rw [rangeResult, BitVec.toNat_umod, fit_eq_some ⟨by omega, by omega⟩, Option.bind_eq_bind,
    Option.bind_some, add_eq ⟨by omega, by omega⟩, Option.bind_some,
    fit_eq_some ⟨by omega, by omega⟩]

theorem rngRange_eq (fuel : ℕ) (rng : RngState) {span : BitVec 64}
    (hsome : rangeSpan min max = some span) (hspan : (span.toNat : ℤ) = max-min+1) :
    rngRange fuel rng min max = (acceptedDraw fuel span rng).map fun drawn =>
      ⟨min+(drawn.1.toNat % span.toNat : ℕ), drawn.2, none⟩ := by
  rw [rngRange, if_neg (by omega), hsome, Option.bind_eq_bind, Option.bind_some]
  cases acceptedDraw fuel span rng with
  | none => rfl
  | some drawn => simp [rangeResult_eq hmin hmax hle hspan]

end Range

theorem rngChance_eq (fuel : ℕ) (rng : RngState) {n : BitVec 32} (hn : 1 ≤ n.toNat) :
    rngChance fuel rng n = (acceptedDraw fuel (n.setWidth 64) rng).map fun drawn =>
      ⟨chanceResult (n.setWidth 64) drawn.1, drawn.2, none⟩ := by
  have hne : n ≠ 0#32 := by
    rintro rfl
    simp at hn
  rw [rngChance, if_neg hne]
  dsimp only
  cases acceptedDraw fuel (n.setWidth 64) rng <;> rfl

end LibAtrinik.Rng

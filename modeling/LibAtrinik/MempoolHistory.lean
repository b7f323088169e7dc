import LibAtrinik.MempoolRun

namespace LibAtrinik.Mempool

open IntrusiveList BlockLedger SortLinkedList

section Conditions

/-- A chunk is got from a puddle only for an exponent that leaves some of `expand_size`. -/
def Sized (r : Run) : Event → Prop
  | .getChunk pool e _ _ =>
    (r.state.pools pool).bypasses = false → (r.state.pools pool).arrays e ≠ 0
  | _ => True

/-- A reclaim meets no puddle with more free chunks than its counter can hold. -/
def NarrowStep (r : Run) : Event → Prop
  | .reclaim pool _ _ => Walked r.state pool → Narrow r.state pool
  | _ => True

/-- A reclaim meets no puddle of an exponent that leaves nothing of `expand_size`. -/
def CoveredStep (r : Run) : Event → Prop
  | .reclaim pool _ _ => Walked r.state pool → Covered r.state pool
  | _ => True

end Conditions

section Runs

variable {setup : ℕ → Pool} {g : Shape} {r : Run}

/-- The invariant of a run. -/
structure Steady (setup : ℕ → Pool) (r : Run) (g : Shape) : Prop where
  sound : Sound setup r.state g r.held fun _ => True
  orphans : ∀ k : Key, (setup k.1).bypasses = false → g.orphans k = []

def Shape.empty : Shape := ⟨⟨fun _ => [], fun _ => [], fun _ => none⟩, fun _ => [], fun _ => []⟩

theorem steady_init (expand : ℕ → ℕ) (flags : ℕ → UInt32) :
    Steady (State.init expand flags).pools (Run.init expand flags) Shape.empty := by
  have hpool : ∀ pool, ∃ n f, (State.init expand flags).pools pool = mempoolCreate n f := by
    intro pool
    by_cases hpool : pool = poolPuddle
    · exact ⟨10, allowFreeing, if_pos hpool⟩
    · exact ⟨expand pool, flags pool, if_neg hpool⟩
  refine ⟨?_, fun _ _ => rfl⟩
  refine ⟨rfl, fun _ => rfl, fun _ => rfl, ?_, ?_, ?_, ?_, ?_, ?_, ?_, ?_, ?_, ?_, ?_, ?_⟩
  · refine ⟨fun _ => List.nodup_nil, ?_, fun _ => List.nodup_nil, ?_, ?_⟩
    · intro k k' b hb
      cases hb
    · intro k a
      constructor
      · intro ha
        cases ha.1
      · intro ha
        rcases ha with hfree | hused
        · cases hfree
        · cases hused
    · intro k a ha
      cases ha
  · intro a
    constructor
    · intro hc
      obtain ⟨c, hc⟩ := hc
      cases hc
    · intro ha
      obtain ⟨k, hb, _⟩ := ha
      cases hb
  · intro a k c hused
    cases hused
  · intro k r b hmem
    cases hmem
  · intro k r b hmem
    cases hmem
  · intro k k' r b b' hmem
    cases hmem
  · intro k
    exact List.nodup_nil
  · intro k
    exact List.Perm.refl []
  · intro k _
    rfl
  · intro r b hmem
    cases hmem
  · intro a k
    constructor
    · intro hheld
      cases hheld
    · intro hused
      cases hused.1
  · intro k _
    obtain ⟨n, f, hk⟩ := hpool k.1
    change Settled _ (State.init expand flags) _ _
    refine ⟨?_, ?_, ?_, ?_⟩
    · rw [hk]
      rfl
    · rw [hk]
      rfl
    · rw [hk]
      rfl
    · rw [hk]
      exact (Nat.zero_mul _).symm

/-- What holds at the start and is kept by each step that is taken holds at the end. -/
theorem performAll_spec (C : Run → Event → Prop) (I : Run → Prop)
    (hstep : ∀ r event, I r → C r event → ∃ r', perform r event = .ok r' ∧ I r')
    (events : List Event) (r : Run) (hr : I r) (halways : Always C r events) :
    ∃ r', performAll r events = .ok r' ∧ I r' := by
  induction events generalizing r with
  | nil => exact ⟨r, rfl, hr⟩
  | cons event events ih =>
    obtain ⟨r₁, hperform, hr₁⟩ := hstep r event hr halways.1
    obtain ⟨r₂, hrest, hr₂⟩ := ih r₁ hr₁ (halways.2 r₁ hperform)
    refine ⟨r₂, ?_, hr₂⟩
    unfold performAll
    rw [hperform]
    exact hrest

theorem init_poolPuddle (expand : ℕ → ℕ) (flags : ℕ → UInt32) :
    (State.init expand flags).pools poolPuddle = mempoolCreate 10 allowFreeing := rfl

variable (hsetup : setup poolPuddle = mempoolCreate 10 allowFreeing)
include hsetup

/-- A step keeps the invariant. Puddles are only added for the exponent of a chunk that is got, and
for the records of puddles. -/
theorem perform_spec (h : Steady setup r g) (event : Event) (hallowed : Allowed r event)
    (hnarrow : NarrowStep r event) (hcovered : CoveredStep r event) :
    ∃ r' g', perform r event = .ok r' ∧ Steady setup r' g' ∧
      ∀ k, k ≠ puddleKey → g.records k = [] →
        (∀ block block', event ≠ .getChunk k.1 k.2 block block') → g'.records k = [] := by
  have hs := h.sound
  cases event with
  | getChunk pool e block block' =>
    obtain ⟨hfresh, hfresh', hne⟩ := hallowed
    obtain ⟨a, s', g', hget, hs', _, horphans, hsame⟩ :=
      mempoolGetChunk_spec hsetup hs (pool, e) trivial trivial block block' hfresh hfresh' hne
    refine ⟨⟨s', Function.update r.held a (some (pool, e))⟩, g', ?_, ⟨hs', ?_⟩, ?_⟩
    · have hget : mempoolGetChunk [block, block'] r.state pool e = .ok (a, s') := hget
      change (mempoolGetChunk [block, block'] r.state pool e >>= _) = _
      rw [hget]
      rfl
    · intro k hbypass
      rw [horphans k hbypass, h.orphans k hbypass]
    · intro k hk hrecords hother
      have hkey : k ≠ (pool, e) := by
        intro heq
        exact hother block block' (by rw [heq])
      rw [(hsame k hkey hk).records, hrecords]
  | returnChunk pool e chunk =>
    cases hbypass : (setup pool).bypasses with
    | true =>
      obtain ⟨s', g', hreturn, hs', hsame⟩ :=
        mempoolReturnChunk_bypass hs (pool, e) trivial hbypass chunk hallowed
      refine ⟨⟨s', Function.update r.held chunk none⟩, g', ?_, ⟨hs', ?_⟩, ?_⟩
      · have hreturn : mempoolReturnChunk r.state pool e chunk = .ok s' := hreturn
        change (mempoolReturnChunk r.state pool e chunk >>= _) = _
        rw [hreturn]
        rfl
      · intro k hk
        have hne : k ≠ (pool, e) := by
          intro heq
          rw [heq, hbypass] at hk
          cases hk
        rw [(hsame k hne).orphans, h.orphans k hk]
      · intro k _ hrecords _
        by_cases heq : k = (pool, e)
        · exact hs'.bypassed k (by rw [heq]; exact hbypass)
        · rw [(hsame k heq).records, hrecords]
    | false =>
      obtain ⟨s', hreturn, hs', _⟩ :=
        mempoolReturnChunk_pool hs (pool, e) trivial hbypass chunk hallowed
      refine ⟨⟨s', Function.update r.held chunk none⟩, g.give (pool, e) chunk, ?_,
        ⟨hs', h.orphans⟩, fun _ _ hrecords _ => hrecords⟩
      have hreturn : mempoolReturnChunk r.state pool e chunk = .ok s' := hreturn
      change (mempoolReturnChunk r.state pool e chunk >>= _) = _
      rw [hreturn]
      rfl
  | reclaim pool stack fuel =>
    obtain ⟨s', g', freed, hreclaim, hs', hleft⟩ :=
      mempoolReclaim_spec hsetup hs h.orphans pool stack fuel hnarrow hcovered hallowed
    refine ⟨⟨s', r.held⟩, g', ?_, ⟨hs', hleft.orphans⟩, ?_⟩
    · change (mempoolReclaim stack fuel r.state pool >>= _) = _
      rw [hreclaim]
      rfl
    · intro k _ hrecords _
      apply List.eq_nil_iff_forall_not_mem.mpr
      intro record hmem
      have hold := hleft.records k record hmem
      rw [hrecords] at hold
      cases hold

end Runs

section Reading

variable {setup : ℕ → Pool} {g : Shape} {r : Run}

theorem Steady.consistent (h : Steady setup r g) (k : Key)
    (hbypass : (r.state.pools k.1).bypasses = false) :
    ∃ free puddles, Consistent r k free puddles := by
  rw [h.sound.bypasses] at hbypass
  exact ⟨_, _, h.sound.consistent (h.orphans k hbypass)⟩

variable (hsetup : setup poolPuddle = mempoolCreate 10 allowFreeing)
include hsetup

theorem Steady.getChunk (h : Steady setup r g) (pool : ℕ) (e : Exponent) (block block' : ℕ)
    (hallowed : Allowed r (.getChunk pool e block block')) :
    ∃ a s, mempoolGetChunk [block, block'] r.state pool e = .ok (a, s) ∧ ∀ k, ¬ InUse r k a := by
  obtain ⟨hfresh, hfresh', hne⟩ := hallowed
  obtain ⟨a, s, g', hget, _, hunused, _⟩ := mempoolGetChunk_spec hsetup h.sound (pool, e) trivial
    trivial block block' hfresh hfresh' hne
  refine ⟨a, s, hget, ?_⟩
  intro k huse
  rw [(inUse_iff h.sound a).mp huse] at hunused
  cases hunused

/-- A reclaim keeps what is in use, and the lists agree after it. -/
theorem Steady.reclaim (h : Steady setup r g) (pool : ℕ) (stack : Fin 4 → Tape (Option Addr))
    (fuel : ℕ) (hallowed : Allowed r (.reclaim pool stack fuel))
    (hnarrow : NarrowStep r (.reclaim pool stack fuel))
    (hcovered : CoveredStep r (.reclaim pool stack fuel)) :
    ∃ s freed g', mempoolReclaim stack fuel r.state pool = .ok (s, freed) ∧
      Steady setup ⟨s, r.held⟩ g' ∧ ∀ k a, InUse r k a → ∃ c, s.memory a = some c := by
  obtain ⟨s', g', freed, hreclaim, hs', hleft⟩ :=
    mempoolReclaim_spec hsetup h.sound h.orphans pool stack fuel hnarrow hcovered hallowed
  refine ⟨s', freed, g', hreclaim, ⟨hs', hleft.orphans⟩, ?_⟩
  intro k a huse
  rcases huse with hheld | hrecord
  · obtain ⟨c, hc, _⟩ := hs'.ofUsed ((hs'.heldBy a k).mp hheld).1
    exact ⟨c, hc⟩
  · -- a record stays in its block, which is never freed because it holds its own record
    have hused := (inUse_iff h.sound a).mp (Or.inr hrecord)
    obtain ⟨hb, hi⟩ := h.sound.balanced.of_used hused
    rw [hrecord.1] at hb hi
    exact (hs'.domain a).mpr ⟨puddleKey, hleft.puddles a.1 hb, hi⟩

end Reading

section Agreement

/-- What is said of a reclaim in a state: it frees no chunk in use, and after it the lists and the
counters of the pool agree. -/
def Reclaims (C : Run → Event → Prop) (r : Run) : Prop :=
  ∀ pool stack fuel, C r (.reclaim pool stack fuel) →
    ∃ s freed, mempoolReclaim stack fuel r.state pool = .ok (s, freed) ∧
      (∀ k a, InUse r k a → ∃ c, s.memory a = some c) ∧
      ∀ e, (s.pools pool).bypasses = false →
        ∃ free puddles, Consistent ⟨s, r.held⟩ (pool, e) free puddles

/-- The steps for which expansion and reclaim agree. -/
def AgreeStep (r : Run) (event : Event) : Prop :=
  Allowed r event ∧ NarrowStep r event ∧ CoveredStep r event

theorem reclaim_agrees (expand : ℕ → ℕ) (flags : ℕ → UInt32) (events : List Event)
    (h : Always AgreeStep (Run.init expand flags) events) :
    ∃ r, performAll (Run.init expand flags) events = .ok r ∧ Reclaims AgreeStep r := by
  have hsetup := init_poolPuddle expand flags
  obtain ⟨r, hrun, g, hr⟩ := performAll_spec AgreeStep
    (fun r => ∃ g, Steady (State.init expand flags).pools r g) (by
      intro r event hr hallowed
      obtain ⟨g, hr⟩ := hr
      obtain ⟨r', g', hstep, hr', _⟩ :=
        perform_spec hsetup hr event hallowed.1 hallowed.2.1 hallowed.2.2
      exact ⟨r', hstep, g', hr'⟩)
    events (Run.init expand flags) ⟨Shape.empty, steady_init expand flags⟩ h
  refine ⟨r, hrun, ?_⟩
  intro pool stack fuel hstep
  obtain ⟨s, freed, g', hreclaim, hs, hkept⟩ :=
    hr.reclaim hsetup pool stack fuel hstep.1 hstep.2.1 hstep.2.2
  exact ⟨s, freed, hreclaim, hkept, fun e hbypass => hs.consistent (pool, e) hbypass⟩

/-- The counters of puddles that are not too large hold all numbers of free chunks. -/
theorem narrow_of_arrays (s : State) (pool : ℕ) (h : ∀ e, (s.pools pool).arrays e < 2^32) :
    Narrow s pool := by
  intro e l _ a _ c _
  apply Nat.lt_of_le_of_lt _ (h e)
  unfold freeCount
  cases c.data.firstChunk with
  | chunk first =>
    have hle := List.length_filter_le (fun j => chunkFree s (first.1, first.2+j))
      (List.range ((s.pools pool).arrays e))
    rwa [List.length_range] at hle
  | null => exact Nat.zero_le _
  | endMarker => exact Nat.zero_le _

/-- A reclaim of a pool can be made, as can be seen from the pool alone. -/
def Small (s : State) (pool fuel : ℕ) : Prop :=
  ∀ e, (s.pools pool).nrofAllocated e ≤ fuel ∧ (s.pools pool).arrays e < 2^32 ∧
    ((s.pools pool).arrays e = 0 → (s.pools pool).puddlelist e = none)

instance (s : State) (pool fuel : ℕ) : Decidable (Small s pool fuel) := Nat.decidableForallFin _

theorem Small.agreeStep {r : Run} {pool fuel : ℕ} (h : Small r.state pool fuel)
    (stack : Fin 4 → Tape (Option Addr)) : AgreeStep r (.reclaim pool stack fuel) :=
  ⟨fun e => (h e).1, fun _ => narrow_of_arrays r.state pool fun e => (h e).2.1,
    fun _ e => (h e).2.2⟩

/-- What a computation gives, if it gives anything. -/
theorem value_of_ok {α β : Type*} {x : Except Fault β} {y : β} (f : β → α) {value : α}
    (h : x.toOption.map f = some value) (hx : x = .ok y) : f y = value := by
  rw [hx] at h
  exact Option.some.inj h

theorem fresh_init (expand : ℕ → ℕ) (flags : ℕ → UInt32) (b : ℕ) :
    Fresh (Run.init expand flags).state b := fun _ => rfl

/-- Pools with puddles of four chunks that may be reclaimed. -/
def fourChunks : Run := Run.init (fun _ => 4) fun _ => allowFreeing

/-- A stack that holds null pointers. -/
def clearStack : Fin 4 → Tape (Option Addr) := fun _ => ⟨none, none, 0⟩

theorem reclaim_agrees_four : ∃ r,
    performAll fourChunks [.getChunk 1 2 5 6, .reclaim 1 clearStack 4] = .ok r ∧
      Reclaims AgreeStep r := by
  apply reclaim_agrees
  refine ⟨⟨⟨fresh_init _ _ 5, fresh_init _ _ 6, by decide⟩, trivial, trivial⟩, ?_⟩
  intro r hr
  have hsmall : decide (Small r.state 1 4) = true :=
    value_of_ok (fun r => decide (Small r.state 1 4)) (by decide +kernel) hr
  exact ⟨(of_decide_eq_true hsmall).agreeStep clearStack, fun _ _ => trivial⟩

/-- A reclaim while a chunk of an exponent is in use. A puddle of four has no room for one of eight.
-/
def reclaimOfFour (e : Exponent) : Except Fault (State × ℕ) := do
  let r ← performAll fourChunks [.getChunk 1 e 5 6]
  mempoolReclaim clearStack 4 r.state 1

theorem reclaimOfFour_frees :
    (reclaimOfFour 3).toOption.map (fun result => result.1.memory (5, 0)) = some none := by
  decide +kernel

/-- A chunk of eight is got, for which a puddle of four has no room. The reclaim takes its puddle
for one of no chunks, none of which is in use. -/
theorem reclaim_disagrees :
    ¬ ∀ expand flags events, Always Allowed (Run.init expand flags) events →
      ∃ r, performAll (Run.init expand flags) events = .ok r ∧ Reclaims Allowed r := by
  intro hall
  obtain ⟨r, hrun, hreclaims⟩ := hall (fun _ => 4) (fun _ => allowFreeing) [.getChunk 1 3 5 6]
    ⟨⟨fresh_init _ _ 5, fresh_init _ _ 6, by decide⟩, fun _ _ => trivial⟩
  have hallowed : decide (∀ e, (r.state.pools 1).nrofAllocated e ≤ 4) = true :=
    value_of_ok (fun r => decide (∀ e, (r.state.pools 1).nrofAllocated e ≤ 4)) (by decide +kernel)
      hrun
  have hheld : r.held (5, 0) = some (1, 3) :=
    value_of_ok (fun r => r.held (5, 0)) (by decide +kernel) hrun
  have hfuel : ∀ e, (r.state.pools 1).nrofAllocated e ≤ 4 := of_decide_eq_true hallowed
  obtain ⟨s, freed, hreclaim, hkept, _⟩ := hreclaims 1 clearStack 4 hfuel
  have hboth : reclaimOfFour 3 = .ok (s, freed) := by
    change (performAll (Run.init (fun _ => 4) fun _ => allowFreeing) _ >>= _) = _
    rw [hrun]
    exact hreclaim
  have hfreed : s.memory (5, 0) = none := by
    have hvalue := reclaimOfFour_frees
    rw [hboth] at hvalue
    exact Option.some.inj hvalue
  obtain ⟨c, hc⟩ := hkept (1, 3) (5, 0) (Or.inl hheld)
  rw [hfreed] at hc
  cases hc

end Agreement

end LibAtrinik.Mempool

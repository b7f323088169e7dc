import LibAtrinik.MempoolHistory

namespace LibAtrinik.Mempool

open IntrusiveList BlockLedger SortLinkedList

section Runs

/-- The steps that are asked of the pools: exponents for which a puddle has a chunk at least. -/
def AskedStep (r : Run) (event : Event) : Prop := Allowed r event ∧ Sized r event

/-- The steps among them that meet no puddle with more free chunks than its counter can hold. -/
def CountedStep (r : Run) (event : Event) : Prop := AskedStep r event ∧ NarrowStep r event

variable {setup : ℕ → Pool} {g : Shape} {r : Run}

/-- Only exponents for which a puddle has a chunk have puddles. -/
def Filled (setup : ℕ → Pool) (g : Shape) : Prop :=
  ∀ k : Key, (setup k.1).bypasses = false → (setup k.1).arrays k.2 = 0 → g.records k = []

theorem Filled.covered (h : Filled setup g) (hr : Steady setup r g) (event : Event) :
    CoveredStep r event := by
  cases event with
  | getChunk pool e block block' => trivial
  | returnChunk pool e chunk => trivial
  | reclaim pool stack fuel =>
    intro hwalked e hzero
    have hbypass := hwalked.2
    rw [hr.sound.bypasses] at hbypass
    rw [hr.sound.arrays (pool, e)] at hzero
    have hchain := (hr.sound.settled (pool, e) trivial).puddlelist
    rw [h (pool, e) hbypass hzero] at hchain
    exact hchain

variable (hsetup : setup poolPuddle = mempoolCreate 10 allowFreeing)
include hsetup

theorem counted_step (hr : Steady setup r g) (hfilled : Filled setup g) (event : Event)
    (hstep : CountedStep r event) :
    ∃ r' g', perform r event = .ok r' ∧ Steady setup r' g' ∧ Filled setup g' := by
  obtain ⟨r', g', hperform, hr', hrecords⟩ :=
    perform_spec hsetup hr event hstep.1.1 hstep.2 (hfilled.covered hr event)
  refine ⟨r', g', hperform, hr', ?_⟩
  intro k hbypass hzero
  apply hrecords k ?_ (hfilled k hbypass hzero)
  · intro block block' heq
    have hsized := hstep.1.2
    rw [heq] at hsized
    have hsome := hsized (by rw [hr.sound.bypasses]; exact hbypass)
    rw [hr.sound.arrays k] at hsome
    exact hsome hzero
  · intro heq
    rw [heq] at hzero
    change (setup poolPuddle).arrays 0 = 0 at hzero
    rw [hsetup] at hzero
    exact absurd hzero (by decide)

omit hsetup in
/-- After every run of steps whose puddles can be counted the lists and the counters agree, no chunk
is got that is in use, and a reclaim discards no chunk that is in use. -/
theorem pools_correct (expand : ℕ → ℕ) (flags : ℕ → UInt32) (events : List Event)
    (h : Always CountedStep (Run.init expand flags) events) :
    ∃ r, performAll (Run.init expand flags) events = .ok r ∧ Correct CountedStep r := by
  have hsetup := init_poolPuddle expand flags
  obtain ⟨r, hrun, g, hr, hfilled⟩ := performAll_spec CountedStep
    (fun r => ∃ g, Steady (State.init expand flags).pools r g ∧
      Filled (State.init expand flags).pools g) (by
      intro r event hr hstep
      obtain ⟨g, hr, hfilled⟩ := hr
      obtain ⟨r', g', hperform, hr'⟩ := counted_step hsetup hr hfilled event hstep
      exact ⟨r', hperform, g', hr'⟩)
    events (Run.init expand flags) ⟨Shape.empty, steady_init expand flags, fun _ _ _ => rfl⟩ h
  refine ⟨r, hrun, fun k hbypass => hr.consistent k hbypass, ?_, ?_⟩
  · intro pool e block block' hstep
    exact hr.getChunk hsetup pool e block block' hstep.1.1
  · intro pool stack fuel hstep
    obtain ⟨s, freed, _, hreclaim, _, hkept⟩ :=
      hr.reclaim hsetup pool stack fuel hstep.1.1 hstep.2 (hfilled.covered hr _)
    exact ⟨s, freed, hreclaim, hkept⟩

omit hsetup in
/-- A chunk is got from a pool with puddles of four, and the pool is reclaimed. -/
theorem pools_correct_four : ∃ r,
    performAll fourChunks [.getChunk 1 0 5 6, .reclaim 1 clearStack 4] = .ok r ∧
      Correct CountedStep r := by
  apply pools_correct
  refine ⟨⟨⟨⟨fresh_init _ _ 5, fresh_init _ _ 6, by decide⟩, fun _ => by decide⟩, trivial⟩, ?_⟩
  intro r hr
  have hsmall : decide (Small r.state 1 4) = true :=
    value_of_ok (fun r => decide (Small r.state 1 4)) (by decide +kernel) hr
  obtain ⟨hallowed, hnarrow, _⟩ := (of_decide_eq_true hsmall).agreeStep clearStack
  exact ⟨⟨⟨hallowed, trivial⟩, hnarrow⟩, fun _ _ => trivial⟩

end Runs

section Nothing

variable {s : State} {pool : ℕ} {e : Exponent}

theorem modifyPool_eq (f : Pool → Pool) (h : f (s.pools pool) = s.pools pool) :
    s.modifyPool pool f = s := by
  unfold State.modifyPool
  rw [h, Function.update_eq_self]

theorem setPuddleLinks_self (s : State) : s.setPuddleLinks s.puddleLinks = s := by
  have hmemory : (s.setPuddleLinks s.puddleLinks).memory = s.memory := by
    funext a
    change (s.memory a).map _ = s.memory a
    cases hc : s.memory a with
    | none => rfl
    | some c =>
      have hlink : s.puddleLinks (some a) = some c.data.next := by
        change (s.memory a).map _ = _
        rw [hc]
        rfl
      rw [Option.map_some, hlink]
  exact congrArg (fun memory => { s with memory := memory }) hmemory

/-- Nothing is sorted. -/
theorem sortPuddles_none (stack : Fin 4 → Tape (Option Addr)) (fuel : ℕ) (s : State) :
    sortPuddles stack fuel none s = .ok (none, s) := by
  obtain ⟨first, links, l, hsort, hperm, hchain, hsame⟩ :=
    sortLinkedList_spec (sortPuddleByNrofFree s) none none none stack fuel []
      (show Seg id s.puddleLinks none [] none from rfl) rfl (Nat.zero_le _)
      fun a ha => absurd ha List.not_mem_nil
  rw [hperm.eq_nil] at hchain
  have hfirst : first = none := hchain
  have hlinks : links = s.puddleLinks := funext fun a => hsame a List.not_mem_nil
  unfold sortPuddles
  rw [hsort, hfirst, hlinks]
  dsimp only
  rw [setPuddleLinks_self]

/-- Nothing is reclaimed where there is no puddle. -/
theorem freeExponent_empty (stack : Fin 4 → Tape (Option Addr)) (fuel freed : ℕ)
    (hlist : (s.pools pool).puddlelist e = none) (hfree : (s.pools pool).freelist e = .endMarker) :
    freeExponent stack fuel pool (s, freed) e = .ok (s, freed) := by
  have hpuddles : s.modifyPool pool (fun p => p.setPuddlelist e none) = s := by
    apply modifyPool_eq
    unfold Pool.setPuddlelist
    rw [← hlist, Function.update_eq_self]
  have hfrees : s.modifyPool pool (fun p => p.setFreelist e .endMarker) = s := by
    apply modifyPool_eq
    unfold Pool.setFreelist
    rw [← hfree, Function.update_eq_self]
  unfold freeExponent
  dsimp only
  rw [hpuddles, hlist, freePuddles_none]
  change (sortPuddles stack fuel ((s.pools pool).puddlelist e) s >>= fun result => _) = _
  rw [hlist, sortPuddles_none]
  change (restoreFreelist pool e fuel (((s.modifyPool pool fun p => p.setPuddlelist e none).modifyPool
    pool fun p => p.setFreelist e .endMarker).pools pool |>.puddlelist e) .endMarker
    ((s.modifyPool pool fun p => p.setPuddlelist e none).modifyPool
      pool fun p => p.setFreelist e .endMarker) >>= fun s => _) = _
  rw [hpuddles, hfrees, hlist]
  cases fuel <;> rfl

theorem freeExponents_empty (stack : Fin 4 → Tape (Option Addr)) (fuel freed : ℕ)
    (es : List Exponent) (h : ∀ e ∈ es, (s.pools pool).puddlelist e = none ∧
      (s.pools pool).freelist e = .endMarker) :
    es.foldlM (freeExponent stack fuel pool) (s, freed) = .ok (s, freed) := by
  induction es with
  | nil => rfl
  | cons e es ih =>
    obtain ⟨hlist, hfree⟩ := h e List.mem_cons_self
    rw [List.foldlM_cons, freeExponent_empty stack fuel freed hlist hfree]
    exact ih fun e he => h e (List.mem_cons_of_mem _ he)

/-- Puddles whose counters are zero give nothing to the free list. -/
theorem restoreFreelist_skip (l : List Addr) (fuel : ℕ) (first : Option Addr) (last : Pointer)
    (hchain : Seg some s.puddleNext first l none) (hfuel : l.length ≤ fuel)
    (hzero : ∀ a ∈ l, ∃ c, s.memory a = some c ∧ c.data.nrofFree = 0) :
    restoreFreelist pool e fuel first last s = .ok s := by
  induction l generalizing fuel first with
  | nil =>
    have hfirst : first = none := hchain
    rw [hfirst]
    cases fuel <;> rfl
  | cons a l ih =>
    obtain ⟨hfirst, next, hnext, hrest⟩ := hchain
    obtain ⟨c, hc, hcount⟩ := hzero a List.mem_cons_self
    rw [State.puddleNext_eq hc] at hnext
    cases fuel with
    | zero => exact absurd hfuel (Nat.not_succ_le_zero _)
    | succ fuel =>
      rw [hfirst, restoreFreelist, State.load_ok hc]
      change (if c.data.nrofFree > 0 then _ else _ : Except Fault State) = _
      rw [if_neg (by rw [hcount]; decide), Option.some.inj hnext]
      exact ih fuel next hrest (Nat.le_of_succ_le_succ hfuel)
        fun a ha => hzero a (List.mem_cons_of_mem _ ha)

end Nothing

section Wide

variable {setup : ℕ → Pool} {s : State} {g : Shape} {held : Addr → Option Key} {k : Key}

/-- All chunks of the puddles of a key are free, and there are so many in each that the counter of
the puddle comes back to zero. -/
structure Wide (setup : ℕ → Pool) (g : Shape) (k : Key) : Prop where
  size : size setup k = 2^32
  full : ∀ r b, (r, b) ∈ g.records k →
    (freeIn (g.ledger.free k) b 0 (Mempool.size setup k)).length = 2^32

theorem Wide.counted (h : Wide setup g k) {r : Addr} {b : ℕ} (hmem : (r, b) ∈ g.records k) :
    counted setup g k b = 0 := by
  unfold Mempool.counted
  rw [h.full r b hmem]
  rfl

/-- The reclaim of such a key keeps its puddles and loses its free list. -/
theorem freeExponent_wide (h : Sound setup s g held fun _ => True)
    (hsetup : setup poolPuddle = mempoolCreate 10 allowFreeing)
    (hbypass : (setup k.1).bypasses = false) (horphans : g.orphans k = [])
    (stack : Fin 4 → Tape (Option Addr)) (fuel freed : ℕ) (hwide : Wide setup g k)
    (hfuel : (g.records k).length ≤ fuel) :
    ∃ s' freed', freeExponent stack fuel k.1 (s, freed) k.2 = .ok (s', freed') ∧
      Sound setup s' g held (fun k' => True ∧ k' ≠ k) ∧
      (s'.pools k.1).freelist k.2 = .endMarker ∧
      (s'.pools k.1).nrofFree k.2 = (g.ledger.free k).length := by
  have hsize : (s.pools k.1).arrays k.2 = Mempool.size setup k := by
    have hne : (setup k.1).arrays k.2 ≠ 0 := by
      intro hzero
      have hone : Mempool.size setup k = 1 := by
        unfold Mempool.size Pool.chunks
        rw [hbypass, if_neg Bool.false_ne_true, if_pos hzero]
      rw [hwide.size] at hone
      exact absurd hone (by decide)
    unfold Mempool.size Pool.chunks
    rw [h.arrays, hbypass, if_neg Bool.false_ne_true, if_neg hne]
  -- no puddle seems to be free
  have hnever : ∀ r b, (r, b) ∈ g.records k → Mempool.counted setup g k b ≠ Mempool.size setup k := by
    intro r b hmem
    rw [hwide.counted hmem, hwide.size]
    decide
  obtain ⟨s', g', freed', first, kept, hrun, hsorted⟩ := freeExponent_sorted h hsetup k horphans stack
    fuel freed (Or.inl hsize) (fun r b hmem heq => absurd heq (hnever r b hmem)) hfuel
  have hsame : g' = g := hsorted.same (Or.inr hnever)
  rw [hsame] at hsorted
  have hrestore : restoreFreelist k.1 k.2 fuel first .endMarker s' = .ok s' := by
    apply restoreFreelist_skip (kept.map Prod.fst) fuel first .endMarker hsorted.ahead
    · rw [List.length_map]
      exact Nat.le_trans hsorted.length hfuel
    · intro a ha
      obtain ⟨⟨r, b⟩, hmem, hra⟩ := List.mem_map.mp ha
      obtain ⟨c, hc, hnumber, _⟩ := hsorted.listed r b hmem
      have hra : r = a := hra
      rw [hra] at hc
      refine ⟨c, hc, ?_⟩
      rw [hnumber, hwide.full r b (hsorted.from_records r b hmem).1]
      rfl
  refine ⟨s', freed', ?_, hsorted.sound, hsorted.freelist, hsorted.nrofFree⟩
  rw [hrun, hrestore]
  rfl

/-- When no user holds a chunk of a key, all chunks of its puddles are free, unless it has the
records. -/
theorem Sound.all_free (h : Sound setup s g held fun _ => True) (hk : k ≠ puddleKey)
    (horphans : g.orphans k = []) (hheld : ∀ a, held a ≠ some k) {r : Addr} {b : ℕ}
    (hmem : (r, b) ∈ g.records k) :
    (freeIn (g.ledger.free k) b 0 (Mempool.size setup k)).length = Mempool.size setup k := by
  have hb : b ∈ g.ledger.blocks k :=
    (h.puddleBlocks horphans).mem_iff.mp (List.mem_map_of_mem hmem)
  have hall : ∀ i, i < Mempool.size setup k → (b, i) ∈ g.ledger.free k := by
    intro i hi
    rcases (h.balanced.cell k (b, i)).mp ⟨hb, hi⟩ with hfree | hused
    · exact hfree
    · refine absurd ((h.heldBy (b, i) k).mpr ⟨hused, ?_⟩) (hheld (b, i))
      intro k' b' hrecord
      have hused' := h.record k' (b, i) b' hrecord
      rw [hused] at hused'
      exact hk (Option.some.inj hused')
  unfold freeIn
  rw [List.filter_eq_self.mpr, List.length_map, List.length_range']
  intro a ha
  obtain ⟨i, hi, hia⟩ := List.mem_map.mp ha
  have hi := (List.mem_range'_1.mp hi).2
  rw [← hia]
  exact decide_eq_true (hall i (by omega))

/-- A pool that is reclaimed when its only puddles are such ones has free chunks and no free list.
-/
theorem mempoolReclaim_wide (h : Sound setup s g held fun _ => True)
    (hsetup : setup poolPuddle = mempoolCreate 10 allowFreeing) (pool : ℕ)
    (hfreeable : (s.pools pool).freeable = true) (hbypass : (setup pool).bypasses = false)
    (horphans : ∀ e, g.orphans (pool, e) = []) (hwide : Wide setup g (pool, 0))
    (hothers : ∀ e, e ≠ 0 → g.records (pool, e) = [])
    (stack : Fin 4 → Tape (Option Addr)) (fuel : ℕ) (hfuel : (g.records (pool, 0)).length ≤ fuel) :
    ∃ s' freed, mempoolReclaim stack fuel s pool = .ok (s', freed) ∧
      (s'.pools pool).bypasses = false ∧ (s'.pools pool).freelist 0 = .endMarker ∧
      (s'.pools pool).nrofFree 0 = (g.ledger.free (pool, 0)).length := by
  obtain ⟨s', freed, hfirst, h', hlist, hcount⟩ := freeExponent_wide (k := (pool, 0)) h hsetup hbypass
    (horphans 0) stack fuel 0 hwide hfuel
  refine ⟨s', freed, ?_, (h'.bypasses pool).trans hbypass, hlist, hcount⟩
  have hbypass' : (s.pools pool).bypasses = false := by rw [h.bypasses, hbypass]
  unfold mempoolReclaim mempoolFreePuddles
  rw [if_neg (by rw [hfreeable]; exact not_not.mpr rfl), if_neg (by rw [hbypass']; decide)]
  have hsplit : List.finRange 8 = 0 :: (List.finRange 8).tail := by decide
  have hpositive : ∀ e ∈ (List.finRange 8).tail, e ≠ 0 := by decide
  have hfirst : freeExponent stack fuel pool (s, 0) 0 = .ok (s', freed) := hfirst
  rw [hsplit, List.foldlM_cons, hfirst]
  apply freeExponents_empty
  intro e he
  -- the other exponents have neither puddles nor chunks
  have hne : (pool, e) ≠ (pool, 0) := fun heq => hpositive e he (Prod.mk.inj heq).2
  have hset := h'.settled (pool, e) ⟨trivial, hne⟩
  have hrecords := hothers e (hpositive e he)
  have hblocks : g.ledger.blocks (pool, e) = [] := by
    have hperm := h.puddleBlocks (horphans e)
    rw [hrecords] at hperm
    exact hperm.symm.eq_nil
  have hfree : g.ledger.free (pool, e) = [] := by
    apply List.eq_nil_iff_forall_not_mem.mpr
    intro a ha
    have hb := (h.balanced.of_free ha).1
    rw [hblocks] at hb
    cases hb
  constructor
  · have hchain := hset.puddlelist
    rw [hrecords] at hchain
    exact hchain
  · have hchain := hset.freelist
    rw [hfree] at hchain
    exact hchain

end Wide

section Counterexample

/-- In a pool with puddles of `2^32` chunks one chunk is got and returned, and the pool is
reclaimed. The counter of the puddle is zero then, and its chunks are in no free list. -/
theorem pools_disagree :
    ¬ ∀ expand flags events, Always AskedStep (Run.init expand flags) events →
      ∃ r, performAll (Run.init expand flags) events = .ok r ∧ Correct AskedStep r := by
  intro hall
  let expand : ℕ → ℕ := fun _ => 2^32
  let flags : ℕ → UInt32 := fun _ => allowFreeing
  let setup := (State.init expand flags).pools
  have hsetup : setup poolPuddle = mempoolCreate 10 allowFreeing := init_poolPuddle expand flags
  have hpool : setup 1 = mempoolCreate (2^32) allowFreeing := rfl
  have hbypass : (setup 1).bypasses = false := by rw [hpool]; decide
  have hinit := steady_init expand flags
  -- a chunk is got
  obtain ⟨a, s₁, g₁, hget, h₁, _, horphans₁, hframe₁⟩ := mempoolGetChunk_spec hsetup hinit.sound (1, 0)
    trivial trivial 5 6 (fresh_init expand flags 5) (fresh_init expand flags 6) (by decide)
  let r₁ : Run := ⟨s₁, Function.update (fun _ => none) a (some (1, 0))⟩
  have hperform₁ : perform (Run.init expand flags) (.getChunk 1 0 5 6) = .ok r₁ := by
    have hget : mempoolGetChunk [5, 6] (Run.init expand flags).state 1 0 = .ok (a, s₁) := hget
    change (mempoolGetChunk [5, 6] (Run.init expand flags).state 1 0 >>= _) = _
    rw [hget]
    rfl
  -- and returned
  have hheld₁ : r₁.held a = some (1, 0) := by
    change Function.update (fun _ : Addr => (none : Option Key)) a (some (1, 0)) a = _
    rw [Function.update_self]
  obtain ⟨s₂, hreturn, h₂, _⟩ := mempoolReturnChunk_pool h₁ (1, 0) trivial hbypass a hheld₁
  let r₂ : Run := ⟨s₂, fun _ => none⟩
  have hheld₂ : Function.update (Function.update (Run.init expand flags).held a (some (1, 0))) a none =
      fun _ => none := by
    rw [Function.update_idem]
    exact Function.update_eq_self a _
  rw [hheld₂] at h₂
  have hperform₂ : perform r₁ (.returnChunk 1 0 a) = .ok r₂ := by
    have hreturn : mempoolReturnChunk r₁.state 1 0 a = .ok s₂ := hreturn
    change (mempoolReturnChunk r₁.state 1 0 a >>= _) = _
    rw [hreturn]
    change Except.ok (Run.mk s₂ (Function.update (Function.update (Run.init expand flags).held a
      (some (1, 0))) a none)) = _
    rw [hheld₂]
  let g₂ := g₁.give (1, 0) a
  have horphans : ∀ e, g₂.orphans (1, e) = [] := fun e => horphans₁ (1, e) hbypass
  have hothers : ∀ e, e ≠ 0 → g₂.records (1, e) = [] := by
    intro e he
    exact (hframe₁ (1, e) (fun heq => he (Prod.mk.inj heq).2)
      (fun heq => absurd (Prod.mk.inj heq).1 (by decide))).records
  have hsize : size setup (1, 0) = 2^32 := by
    unfold size
    rw [show setup ((1, 0) : Key).1 = mempoolCreate (2^32) allowFreeing from hpool]
    rfl
  have hwide : Wide setup g₂ (1, 0) := by
    refine ⟨hsize, ?_⟩
    intro r b hmem
    rw [h₂.all_free (by decide) (horphans 0) (fun _ heq => by cases heq) hmem, hsize]
  -- and the pool is reclaimed
  obtain ⟨fuel, hfuel⟩ : ∃ fuel, ∀ e, (s₂.pools 1).nrofAllocated e ≤ fuel :=
    ⟨Finset.univ.sup (s₂.pools 1).nrofAllocated, fun e => Finset.le_sup (Finset.mem_univ e)⟩
  have hrecords : (g₂.records (1, 0)).length ≤ fuel := by
    have hlength := (h₂.puddleBlocks (horphans 0)).length_eq
    rw [List.length_map] at hlength
    have hcount := (h₂.settled (1, 0) trivial).nrofAllocated
    have hpos := Nat.le_mul_of_pos_right (g₂.ledger.blocks (1, 0)).length (size_pos setup (1, 0))
    rw [← hcount, ← hlength] at hpos
    exact Nat.le_trans hpos (hfuel 0)
  obtain ⟨s₃, freed, hreclaim, hbypass₃, hlist, hcount⟩ := mempoolReclaim_wide h₂ hsetup 1
    (by unfold Pool.freeable; rw [h₂.flags 1, hpool]; decide) hbypass horphans hwide hothers
    clearStack fuel hrecords
  have hperform₃ : perform r₂ (.reclaim 1 clearStack fuel) = .ok ⟨s₃, fun _ => none⟩ := by
    change (mempoolReclaim clearStack fuel s₂ 1 >>= _) = _
    rw [hreclaim]
    rfl
  obtain ⟨r, hrun, hconsistent, _⟩ := hall expand flags
    [.getChunk 1 0 5 6, .returnChunk 1 0 a, .reclaim 1 clearStack fuel] (by
      refine ⟨⟨⟨fresh_init _ _ 5, fresh_init _ _ 6, by decide⟩, fun _ => by decide⟩, ?_⟩
      intro r hr
      rw [hperform₁] at hr
      cases hr
      refine ⟨⟨hheld₁, trivial⟩, ?_⟩
      intro r hr
      rw [hperform₂] at hr
      cases hr
      exact ⟨⟨hfuel, trivial⟩, fun _ _ => trivial⟩)
  have hend : r = ⟨s₃, fun _ => none⟩ := by
    unfold performAll at hrun
    rw [hperform₁] at hrun
    change performAll r₁ _ = _ at hrun
    unfold performAll at hrun
    rw [hperform₂] at hrun
    change performAll r₂ _ = _ at hrun
    unfold performAll at hrun
    rw [hperform₃] at hrun
    exact (Except.ok.inj hrun).symm
  rw [hend] at hconsistent
  -- the free list is empty, and the pool has free chunks
  obtain ⟨free, puddles, hc⟩ := hconsistent (1, 0) hbypass₃
  have hchain : Seg Pointer.chunk s₃.nextOf ((s₃.pools 1).freelist 0) free .endMarker := hc.freelist
  have hnumber : (s₃.pools 1).nrofFree 0 = free.length := hc.nrofFree
  rw [hlist] at hchain
  have hgiven : g₂.ledger.free (1, 0) = a :: g₁.ledger.free (1, 0) :=
    Ledger.setFree_self (l := g₁.ledger) (1, 0) (a :: g₁.ledger.free (1, 0))
  rw [hcount, hgiven, List.length_cons] at hnumber
  cases free with
  | nil => cases hnumber
  | cons b free => cases hchain.1

end Counterexample

end LibAtrinik.Mempool

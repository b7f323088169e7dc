import LibAtrinik.MempoolRestore

namespace LibAtrinik.Mempool

open IntrusiveList BlockLedger SortLinkedList

section Runs

/-- What is asked of the pools. With it come the blocks that `xcalloc` answers with, and for a
reclaim what the stack holds and the length of the walks. -/
inductive Event where
  | getChunk (pool : ℕ) (e : Exponent) (block block' : ℕ)
  | returnChunk (pool : ℕ) (e : Exponent) (chunk : Addr)
  | reclaim (pool : ℕ) (stack : Fin 4 → Tape (Option Addr)) (fuel : ℕ)

/-- The state of the pools, and for each chunk in the hands of a user where it came from. -/
structure Run where
  state : State
  held : Addr → Option Key

def Run.init (expand : ℕ → ℕ) (flags : ℕ → UInt32) : Run := ⟨State.init expand flags, fun _ => none⟩

def perform (r : Run) : Event → Except Fault Run
  | .getChunk pool e block block' => do
    let (a, s) ← mempoolGetChunk [block, block'] r.state pool e
    return ⟨s, Function.update r.held a (some (pool, e))⟩
  | .returnChunk pool e chunk => do
    let s ← mempoolReturnChunk r.state pool e chunk
    return ⟨s, Function.update r.held chunk none⟩
  | .reclaim pool stack fuel => do
    let (s, _) ← mempoolReclaim stack fuel r.state pool
    return ⟨s, r.held⟩

def performAll (r : Run) : List Event → Except Fault Run
  | [] => .ok r
  | event :: events => do
    let r ← perform r event
    performAll r events

/-- `xcalloc` answers with new blocks, a chunk is returned once and to where it came from, and the
walks of a reclaim may be as long as the lists. -/
def Allowed (r : Run) : Event → Prop
  | .getChunk _ _ block block' => Fresh r.state block ∧ Fresh r.state block' ∧ block' ≠ block
  | .returnChunk pool e chunk => r.held chunk = some (pool, e)
  | .reclaim pool _ fuel => ∀ e, (r.state.pools pool).nrofAllocated e ≤ fuel

/-- Every step of a run satisfies a condition on the state before it. -/
def Always (C : Run → Event → Prop) : Run → List Event → Prop
  | _, [] => True
  | r, event :: events =>
    C r event ∧ ∀ r', perform r event = .ok r' → Always C r' events

end Runs

section Statements

/-- `CHUNK_FREE`. -/
def chunkFree (s : State) (a : Addr) : Bool :=
  match s.memory a with
  | some c => c.next ≠ .null
  | none => false

/-- The number of free chunks among the first ones of a block. -/
def freeCount (s : State) (first : Pointer) (n : ℕ) : ℕ :=
  match first with
  | .chunk a => ((List.range n).filter fun j => chunkFree s (a.1, a.2+j)).length
  | _ => 0

/-- The records in the list of puddles of a key. -/
def PuddleList (s : State) (k : Key) (l : List Addr) : Prop :=
  Seg some s.puddleNext ((s.pools k.1).puddlelist k.2) l none

/-- A reclaim of a pool walks over its puddles. -/
def Walked (s : State) (pool : ℕ) : Prop :=
  (s.pools pool).freeable ∧ (s.pools pool).bypasses = false

/-- No puddle of a pool has as many free chunks as its counter cannot hold. -/
def Narrow (s : State) (pool : ℕ) : Prop :=
  ∀ e l, PuddleList s (pool, e) l → ∀ a ∈ l, ∀ c, s.memory a = some c →
    freeCount s c.data.firstChunk ((s.pools pool).arrays e) < 2^32

/-- A pool has puddles only for exponents that leave some of its `expand_size`. -/
def Covered (s : State) (pool : ℕ) : Prop :=
  ∀ e, (s.pools pool).arrays e = 0 → (s.pools pool).puddlelist e = none

/-- A chunk of a key is in use: a user has it, or it is the record of a puddle. -/
def InUse (r : Run) (k : Key) (a : Addr) : Prop :=
  r.held a = some k ∨ (k = puddleKey ∧ ∃ k' l, PuddleList r.state k' l ∧ a ∈ l)

/-- The chunks of the puddles of a key, each with its record. -/
def chunksOf (n : ℕ) (puddles : List (Addr × ℕ)) : List Addr :=
  puddles.flatMap fun puddle => cells n puddle.2

/-- The lists and counters of a key agree with each other and with what is in use. -/
structure Consistent (r : Run) (k : Key) (free : List Addr) (puddles : List (Addr × ℕ)) : Prop where
  freelist : Seg Pointer.chunk r.state.nextOf ((r.state.pools k.1).freelist k.2) free .endMarker
  free_nodup : free.Nodup
  nrofFree : (r.state.pools k.1).nrofFree k.2 = free.length
  puddlelist : PuddleList r.state k (puddles.map Prod.fst)
  firstChunk : ∀ puddle ∈ puddles, ∃ c, r.state.memory puddle.1 = some c ∧
    c.data.firstChunk = .chunk (puddle.2, 0)
  nodup : (chunksOf ((r.state.pools k.1).chunks k.2) puddles).Nodup
  cover : ∀ a, a ∈ chunksOf ((r.state.pools k.1).chunks k.2) puddles ↔ a ∈ free ∨ InUse r k a
  apart : ∀ a ∈ free, ¬ InUse r k a
  next : ∀ a ∈ chunksOf ((r.state.pools k.1).chunks k.2) puddles, ∃ c, r.state.memory a = some c ∧
    (c.next = .null ↔ InUse r k a)
  nrofAllocated : (r.state.pools k.1).nrofAllocated k.2 =
    (chunksOf ((r.state.pools k.1).chunks k.2) puddles).length

/-- What is said of the pools in a state: each key of a pool that is not bypassed is consistent, no
chunk is got that is still in use, and a reclaim discards no chunk that is in use. -/
def Correct (C : Run → Event → Prop) (r : Run) : Prop :=
  (∀ k : Key, (r.state.pools k.1).bypasses = false → ∃ free puddles, Consistent r k free puddles) ∧
  (∀ pool e block block', C r (.getChunk pool e block block') →
    ∃ a s, mempoolGetChunk [block, block'] r.state pool e = .ok (a, s) ∧ ∀ k, ¬ InUse r k a) ∧
  (∀ pool stack fuel, C r (.reclaim pool stack fuel) →
    ∃ s freed, mempoolReclaim stack fuel r.state pool = .ok (s, freed) ∧
      ∀ k a, InUse r k a → ∃ c, s.memory a = some c)

end Statements

variable {setup : ℕ → Pool} {s : State} {g : Shape} {r : Run} {held : Addr → Option Key}

section Reading

theorem puddleList_eq {k : Key} (h : Sound setup s g held fun _ => True) {l : List Addr}
    (hl : PuddleList s k l) : l = (g.records k).map Prod.fst := by
  apply Seg.unique (fun _ _ heq => Option.some.inj heq) ?_ hl (h.settled k trivial).puddlelist
  intro a p _
  exact Option.some_ne_none a

/-- What is in use is what the ledger says. -/
theorem inUse_iff {k : Key} (h : Sound setup r.state g r.held fun _ => True) (a : Addr) :
    InUse r k a ↔ g.ledger.used a = some k := by
  constructor
  · intro huse
    rcases huse with hheld | ⟨hk, k', l, hl, ha⟩
    · exact ((h.heldBy a k).mp hheld).1
    · rw [puddleList_eq h hl] at ha
      obtain ⟨record, hmem, hra⟩ := List.mem_map.mp ha
      rw [hk, ← hra]
      exact h.record k' record.1 record.2 hmem
  · intro hused
    by_cases hrecord : ∃ k' b, (a, b) ∈ g.records k'
    · obtain ⟨k', b, hmem⟩ := hrecord
      have hk : puddleKey = k := Option.some.inj ((h.record k' a b hmem).symm.trans hused)
      refine Or.inr ⟨hk.symm, k', _, (h.settled k' trivial).puddlelist, ?_⟩
      exact List.mem_map.mpr ⟨(a, b), hmem, rfl⟩
    · refine Or.inl ((h.heldBy a k).mpr ⟨hused, ?_⟩)
      intro k' b hmem
      exact hrecord ⟨k', b, hmem⟩

theorem mem_chunksOf {n : ℕ} {puddles : List (Addr × ℕ)} {a : Addr} :
    a ∈ chunksOf n puddles ↔ a.1 ∈ puddles.map Prod.snd ∧ a.2 < n := by
  unfold chunksOf
  rw [List.mem_flatMap, List.mem_map]
  constructor
  · intro h
    obtain ⟨puddle, hmem, ha⟩ := h
    obtain ⟨hb, hi⟩ := mem_cells.mp ha
    exact ⟨⟨puddle, hmem, hb.symm⟩, hi⟩
  · intro h
    obtain ⟨⟨puddle, hmem, hb⟩, hi⟩ := h
    exact ⟨puddle, hmem, mem_cells.mpr ⟨hb.symm, hi⟩⟩

theorem chunksOf_length (n : ℕ) (puddles : List (Addr × ℕ)) :
    (chunksOf n puddles).length = puddles.length*n := by
  unfold chunksOf
  induction puddles with
  | nil => exact (Nat.zero_mul n).symm
  | cons puddle puddles ih =>
    rw [List.flatMap_cons, List.length_append, ih, cells_length, List.length_cons, Nat.succ_mul,
      Nat.add_comm]

theorem chunksOf_nodup (n : ℕ) (puddles : List (Addr × ℕ)) (h : (puddles.map Prod.snd).Nodup) :
    (chunksOf n puddles).Nodup := by
  apply List.nodup_flatMap.mpr
  constructor
  · intro puddle _
    exact cells_nodup n puddle.2
  · apply (List.pairwise_map.mp h).imp
    intro puddle puddle' hne a ha ha'
    exact hne ((mem_cells.mp ha).1.symm.trans (mem_cells.mp ha').1)

/-- The lists of a key are those of the shape. -/
theorem Sound.consistent {k : Key} (h : Sound setup r.state g r.held fun _ => True)
    (horphans : g.orphans k = []) : Consistent r k (g.ledger.free k) (g.records k) := by
  have hset := h.settled k trivial
  have hchunks : (r.state.pools k.1).chunks k.2 = size setup k := by
    unfold size Pool.chunks
    rw [h.bypasses, h.arrays]
  have hblocks := h.puddleBlocks horphans
  have hin : ∀ a, a ∈ chunksOf (size setup k) (g.records k) ↔
      a ∈ g.ledger.free k ∨ InUse r k a := by
    intro a
    rw [mem_chunksOf, hblocks.mem_iff, inUse_iff h]
    exact h.balanced.cell k a
  refine ⟨hset.freelist, h.balanced.free_nodup k, hset.nrofFree, hset.puddlelist, ?_, ?_, ?_, ?_, ?_,
    ?_⟩
  · intro puddle hmem
    exact h.firstChunk k puddle.1 puddle.2 hmem
  · apply chunksOf_nodup
    exact hblocks.nodup_iff.mpr (h.balanced.blocks_nodup k)
  · rw [hchunks]
    exact hin
  · intro a hfree huse
    exact h.balanced.used_not_free ((inUse_iff h a).mp huse) k hfree
  · intro a ha
    rw [hchunks, mem_chunksOf, hblocks.mem_iff] at ha
    obtain ⟨c, hc⟩ := (h.domain a).mpr ⟨k, ha⟩
    refine ⟨c, hc, ?_⟩
    rw [h.next_null_iff trivial ha.1 ha.2 hc, inUse_iff h]
    constructor
    · intro hfree
      exact ((h.balanced.cell k a).mp ha).resolve_left hfree
    · intro hused
      exact h.balanced.used_not_free hused k
  · rw [hchunks, chunksOf_length, hset.nrofAllocated, ← hblocks.length_eq, List.length_map]

theorem freeCount_eq {k : Key} (h : Sound setup s g held fun _ => True) (b : ℕ)
    (hb : b ∈ g.ledger.blocks k) :
    freeCount s (.chunk (b, 0)) (size setup k) =
      (freeIn (g.ledger.free k) b 0 (size setup k)).length := by
  unfold freeCount freeIn
  rw [← List.range_eq_range', List.filter_map, List.length_map]
  apply congrArg List.length
  apply List.filter_congr
  intro j hj
  have hi := List.mem_range.mp hj
  obtain ⟨c, hc⟩ := (h.domain (b, j)).mpr ⟨k, hb, hi⟩
  have hiff := h.next_null_iff trivial hb hi hc
  change chunkFree s (b, 0+j) = decide ((b, j) ∈ g.ledger.free k)
  unfold chunkFree
  rw [Nat.zero_add, hc, decide_eq_decide]
  rw [ne_eq, hiff, not_not]

/-- A reclaim of a pool whose puddles are neither uncovered nor too wide can be made. -/
theorem Sound.ready (h : Sound setup s g held fun _ => True) (pool : ℕ) (e : Exponent) (fuel : ℕ)
    (hbypass : (setup pool).bypasses = false) (horphans : g.orphans (pool, e) = [])
    (hnarrow : Narrow s pool) (hcovered : Covered s pool)
    (hfuel : (s.pools pool).nrofAllocated e ≤ fuel) : Ready setup g fuel (pool, e) := by
  have hset := h.settled (pool, e) trivial
  have hblocks := h.puddleBlocks horphans
  have harrays : (setup pool).arrays e = 0 → g.records (pool, e) = [] := by
    intro hzero
    rw [← h.arrays (pool, e)] at hzero
    have hchain := hset.puddlelist
    rw [hcovered e hzero] at hchain
    cases hrecords : g.records (pool, e) with
    | nil => rfl
    | cons record rest =>
      rw [hrecords] at hchain
      cases hchain.1
  refine ⟨?_, ?_, ?_⟩
  · by_cases hzero : (setup pool).arrays e = 0
    · exact Or.inr (harrays hzero)
    · exact Or.inl hzero
  · intro r b hmem
    have hne : (setup pool).arrays e ≠ 0 := by
      intro hzero
      rw [harrays hzero] at hmem
      cases hmem
    obtain ⟨c, hc, hfirst⟩ := h.firstChunk (pool, e) r b hmem
    have hsmall := hnarrow e _ hset.puddlelist r (List.mem_map.mpr ⟨(r, b), hmem, rfl⟩) c hc
    have hsize : (s.pools pool).arrays e = size setup (pool, e) := by
      unfold size Pool.chunks
      rw [hbypass, if_neg Bool.false_ne_true, if_neg hne]
      exact h.arrays (pool, e)
    rw [hfirst, hsize, freeCount_eq h b (hblocks.mem_iff.mp (List.mem_map.mpr ⟨(r, b), hmem, rfl⟩))]
      at hsmall
    exact hsmall
  · have hlength := hblocks.length_eq
    rw [List.length_map] at hlength
    have hcount := hset.nrofAllocated
    have hpos := Nat.le_mul_of_pos_right (g.ledger.blocks (pool, e)).length (size_pos setup (pool, e))
    rw [← hcount, ← hlength] at hpos
    exact Nat.le_trans hpos hfuel

end Reading

section Steps

variable (hsetup : setup poolPuddle = mempoolCreate 10 allowFreeing)
include hsetup

/-- What a reclaim leaves. -/
structure Left (setup : ℕ → Pool) (g g' : Shape) : Prop where
  orphans : ∀ k, (setup k.1).bypasses = false → g'.orphans k = []
  records : ∀ k record, record ∈ g'.records k → record ∈ g.records k
  puddles : ∀ b ∈ g.ledger.blocks puddleKey, b ∈ g'.ledger.blocks puddleKey

/-- The reclaim of the exponents in their order. Returned records change the free list of exponent
`0` of the first pool, which comes first if it is reclaimed at all. -/
theorem freeExponents_spec (pool : ℕ) (stack : Fin 4 → Tape (Option Addr)) (fuel : ℕ)
    (hbypass : (setup pool).bypasses = false) (es : List Exponent) (freed : ℕ)
    (hsorted : es.Pairwise (· < ·)) (h : Sound setup s g held fun _ => True)
    (horphans : ∀ k : Key, (setup k.1).bypasses = false → g.orphans k = [])
    (hready : ∀ e ∈ es, Ready setup g fuel (pool, e)) :
    ∃ s' g' freed', es.foldlM (freeExponent stack fuel pool) (s, freed) = .ok (s', freed') ∧
      Sound setup s' g' held (fun _ => True) ∧ Left setup g g' := by
  induction es generalizing s g freed with
  | nil => exact ⟨s, g, freed, rfl, h, horphans, fun _ _ hmem => hmem, fun _ hb => hb⟩
  | cons e es ih =>
    obtain ⟨hlt, hsorted'⟩ := List.pairwise_cons.mp hsorted
    have hk := horphans (pool, e) hbypass
    obtain ⟨s₁, g₁, freed₁, hstep, h₁, haside, horphan₁, hsub, hpuddle⟩ :=
      freeExponent_spec h hsetup (pool, e) hbypass hk stack fuel freed
        (hready e List.mem_cons_self)
    have horphans₁ : ∀ k : Key, (setup k.1).bypasses = false → g₁.orphans k = [] := by
      intro k hbypass'
      by_cases heq : k = (pool, e)
      · rw [heq, horphan₁]
      · rw [haside.orphans k heq, horphans k hbypass']
    have hrecords₁ : ∀ k record, record ∈ g₁.records k → record ∈ g.records k := by
      intro k record hmem
      by_cases heq : k = (pool, e)
      · rw [heq] at hmem ⊢
        exact hsub record hmem
      · rwa [haside.records k heq] at hmem
    obtain ⟨s₂, g₂, freed₂, hrest, h₂, hleft⟩ := ih freed₁ hsorted' h₁ horphans₁ (by
      intro e' he'
      have hne : e' ≠ e := fun heq => absurd (heq ▸ hlt e' he') (Nat.lt_irrefl e.val)
      have hne' : (pool, e') ≠ (pool, e) := fun heq => hne (Prod.mk.inj heq).2
      have hzero : (pool, e') ≠ puddleKey := by
        intro heq
        have hz : e' = 0 := (Prod.mk.inj heq).2
        exact absurd (hz ▸ hlt e' he') (Fin.not_lt_zero e)
      obtain ⟨hfree, hrecords, _⟩ := haside.unchanged (pool, e') hne' hzero
      obtain ⟨harrays, hsmall, hfuel⟩ := hready e' (List.mem_cons_of_mem e he')
      refine ⟨?_, ?_, ?_⟩
      · rw [hrecords]
        exact harrays
      · rw [hrecords, hfree]
        exact hsmall
      · rw [hrecords]
        exact hfuel)
    refine ⟨s₂, g₂, freed₂, ?_, h₂, hleft.orphans, ?_, ?_⟩
    · rw [List.foldlM_cons]
      have hstep : freeExponent stack fuel pool (s, freed) e = .ok (s₁, freed₁) := hstep
      rw [hstep]
      exact hrest
    · intro k record hmem
      exact hrecords₁ k record (hleft.records k record hmem)
    · intro b hb
      apply hleft.puddles b
      by_cases heq : (pool, e) = puddleKey
      · rw [hpuddle heq]
        exact hb
      · have hbypass' := puddle_not_bypassed hsetup
        have hblocks := h.puddleBlocks (horphans puddleKey hbypass')
        have hblocks₁ := h₁.puddleBlocks (horphans₁ puddleKey hbypass')
        rw [haside.records puddleKey fun heq' => heq heq'.symm] at hblocks₁
        exact (hblocks₁.symm.trans hblocks).mem_iff.mpr hb

theorem mempoolReclaim_spec (h : Sound setup s g held fun _ => True)
    (horphans : ∀ k : Key, (setup k.1).bypasses = false → g.orphans k = []) (pool : ℕ)
    (stack : Fin 4 → Tape (Option Addr)) (fuel : ℕ) (hnarrow : Walked s pool → Narrow s pool)
    (hcovered : Walked s pool → Covered s pool)
    (hfuel : ∀ e, (s.pools pool).nrofAllocated e ≤ fuel) :
    ∃ s' g' freed, mempoolReclaim stack fuel s pool = .ok (s', freed) ∧
      Sound setup s' g' held (fun _ => True) ∧ Left setup g g' := by
  have hnothing : Left setup g g := ⟨horphans, fun _ _ hmem => hmem, fun _ hb => hb⟩
  unfold mempoolReclaim mempoolFreePuddles
  by_cases hfreeable : ¬ (s.pools pool).freeable
  · exact ⟨s, g, 0, if_pos hfreeable, h, hnothing⟩
  rw [if_neg hfreeable]
  cases hbypass : (setup pool).bypasses with
  | true => exact ⟨s, g, 0, if_pos (by rw [h.bypasses, hbypass]), h, hnothing⟩
  | false =>
    have hbypass' : (s.pools pool).bypasses = false := by rw [h.bypasses, hbypass]
    have hwalked : Walked s pool := ⟨not_not.mp hfreeable, hbypass'⟩
    rw [if_neg (by rw [hbypass']; exact Bool.false_ne_true)]
    apply freeExponents_spec hsetup pool stack fuel hbypass _ 0 (List.pairwise_lt_finRange 8) h
      horphans
    intro e _
    exact h.ready pool e fuel hbypass (horphans (pool, e) hbypass) (hnarrow hwalked)
      (hcovered hwalked) (hfuel e)

end Steps

end LibAtrinik.Mempool

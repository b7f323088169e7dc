import LibAtrinik.BlockLedger
import LibAtrinik.Mempool

namespace LibAtrinik.Mempool

open IntrusiveList BlockLedger

/-- The number of chunks in a block that is allocated for a pool. -/
def Pool.chunks (p : Pool) (e : Exponent) : ℕ :=
  if p.bypasses then 1 else if p.arrays e = 0 then 1 else p.arrays e

def size (setup : ℕ → Pool) (k : Key) : ℕ := (setup k.1).chunks k.2

theorem size_pos (setup : ℕ → Pool) (k : Key) : 0 < size setup k := by
  unfold size Pool.chunks
  split
  · exact Nat.one_pos
  · split
    · exact Nat.one_pos
    · omega

section Access

variable {s : State} {a : Addr} {c : Chunk}

theorem State.load_ok (h : s.memory a = some c) : s.load a = .ok c := by
  unfold State.load
  rw [h]

theorem State.modify_ok (f : Chunk → Chunk) (h : s.memory a = some c) :
    s.modify a f = .ok (s.store a (f c)) := by
  unfold State.modify
  rw [State.load_ok h]
  rfl

theorem State.setNext_ok (next : Pointer) (h : s.memory a = some c) :
    s.setNext a next = .ok (s.store a { c with next := next }) := State.modify_ok _ h

theorem State.modifyPuddle_ok (f : Puddle → Puddle) (h : s.memory a = some c) :
    s.modifyPuddle a f = .ok (s.store a { c with data := f c.data }) := State.modify_ok _ h

theorem State.store_self (c : Chunk) : (s.store a c).memory a = some c := Function.update_self _ _ _

theorem State.store_other {b : Addr} (c : Chunk) (h : b ≠ a) :
    (s.store a c).memory b = s.memory b := Function.update_of_ne h _ _

theorem State.modifyPool_self (pool : ℕ) (f : Pool → Pool) :
    (s.modifyPool pool f).pools pool = f (s.pools pool) := Function.update_self _ _ _

theorem State.modifyPool_other {pool pool' : ℕ} (f : Pool → Pool) (h : pool' ≠ pool) :
    (s.modifyPool pool f).pools pool' = s.pools pool' := Function.update_of_ne h _ _

end Access

section Agreement

/-- Two values of a pool that may only differ in the lists and counters of one exponent. -/
structure Agrees (e : Exponent) (p p' : Pool) : Prop where
  expandSize : p'.expandSize = p.expandSize
  flags : p'.flags = p.flags
  freelist : ∀ e', e' ≠ e → p'.freelist e' = p.freelist e'
  nrofFree : ∀ e', e' ≠ e → p'.nrofFree e' = p.nrofFree e'
  nrofAllocated : ∀ e', e' ≠ e → p'.nrofAllocated e' = p.nrofAllocated e'
  puddlelist : ∀ e', e' ≠ e → p'.puddlelist e' = p.puddlelist e'

variable {e : Exponent} {p p' p'' : Pool}

theorem Agrees.trans (h : Agrees e p p') (h' : Agrees e p' p'') : Agrees e p p'' where
  expandSize := h'.expandSize.trans h.expandSize
  flags := h'.flags.trans h.flags
  freelist := fun e' he => (h'.freelist e' he).trans (h.freelist e' he)
  nrofFree := fun e' he => (h'.nrofFree e' he).trans (h.nrofFree e' he)
  nrofAllocated := fun e' he => (h'.nrofAllocated e' he).trans (h.nrofAllocated e' he)
  puddlelist := fun e' he => (h'.puddlelist e' he).trans (h.puddlelist e' he)

variable (e p)

theorem agrees_setFreelist (target : Pointer) : Agrees e p (p.setFreelist e target) :=
  ⟨rfl, rfl, fun _ he => Function.update_of_ne he _ _, fun _ _ => rfl, fun _ _ => rfl, fun _ _ => rfl⟩

theorem agrees_setNrofFree (n : ℕ) : Agrees e p (p.setNrofFree e n) :=
  ⟨rfl, rfl, fun _ _ => rfl, fun _ he => Function.update_of_ne he _ _, fun _ _ => rfl, fun _ _ => rfl⟩

theorem agrees_setNrofAllocated (n : ℕ) : Agrees e p (p.setNrofAllocated e n) :=
  ⟨rfl, rfl, fun _ _ => rfl, fun _ _ => rfl, fun _ he => Function.update_of_ne he _ _, fun _ _ => rfl⟩

theorem agrees_setPuddlelist (target : Option Addr) : Agrees e p (p.setPuddlelist e target) :=
  ⟨rfl, rfl, fun _ _ => rfl, fun _ _ => rfl, fun _ _ => rfl, fun _ he => Function.update_of_ne he _ _⟩

end Agreement

/-- The links between chunks. -/
def State.nextOf (s : State) (a : Addr) : Option Pointer := (s.memory a).map Chunk.next

/-- The links between the records of puddles. -/
def State.puddleNext (s : State) (a : Addr) : Option (Option Addr) :=
  (s.memory a).map fun c => c.data.next

theorem State.nextOf_eq {s : State} {a : Addr} {c : Chunk} (h : s.memory a = some c) :
    s.nextOf a = some c.next := by
  unfold State.nextOf
  rw [h]
  rfl

theorem State.puddleNext_eq {s : State} {a : Addr} {c : Chunk} (h : s.memory a = some c) :
    s.puddleNext a = some c.data.next := by
  unfold State.puddleNext
  rw [h]
  rfl

theorem State.nextOf_congr {s s' : State} {a : Addr} (h : s'.memory a = s.memory a) :
    s'.nextOf a = s.nextOf a := by
  unfold State.nextOf
  rw [h]

theorem State.puddleNext_congr {s s' : State} {a : Addr} (h : s'.memory a = s.memory a) :
    s'.puddleNext a = s.puddleNext a := by
  unfold State.puddleNext
  rw [h]

/-- A list of puddles whose records are as before. -/
theorem records_congr {s s' : State} {p : Option Addr} {l : List (Addr × ℕ)}
    (h : Seg some s.puddleNext p (l.map Prod.fst) none)
    (hsame : ∀ r b, (r, b) ∈ l → s'.memory r = s.memory r) :
    Seg some s'.puddleNext p (l.map Prod.fst) none := by
  apply h.congr
  intro r hr
  obtain ⟨record, hmem, hr⟩ := List.mem_map.mp hr
  rw [← hr]
  exact State.puddleNext_congr (hsame record.1 record.2 hmem)

/-- A link of the free list is written into a chunk, and the links of the puddles are as before. -/
theorem State.puddleNext_setLink {s : State} {a : Addr} {c : Chunk} (h : s.memory a = some c)
    (next : Pointer) : (s.store a { c with next := next }).puddleNext = s.puddleNext := by
  funext x
  by_cases hxa : x = a
  · rw [hxa, State.puddleNext_eq h, State.puddleNext_eq (State.store_self _)]
  · exact State.puddleNext_congr (State.store_other _ hxa)

/-- Which chunks are free, which are in use, and which of those are the records of puddles, each
with its block. Blocks without a record are orphans. -/
structure Shape where
  ledger : Ledger Key ℕ
  records : Key → List (Addr × ℕ)
  orphans : Key → List ℕ

/-- The lists and the counters of a key are as they should be. -/
structure Settled (setup : ℕ → Pool) (s : State) (g : Shape) (k : Key) : Prop where
  freelist : Seg Pointer.chunk s.nextOf ((s.pools k.1).freelist k.2) (g.ledger.free k) .endMarker
  puddlelist : Seg some s.puddleNext ((s.pools k.1).puddlelist k.2) ((g.records k).map Prod.fst) none
  nrofFree : (s.pools k.1).nrofFree k.2 = (g.ledger.free k).length
  nrofAllocated : (s.pools k.1).nrofAllocated k.2 = (g.ledger.blocks k).length*size setup k

/-- The invariant. The users hold the chunks that are in use and are not records of puddles. -/
structure Sound (setup : ℕ → Pool) (s : State) (g : Shape) (held : Addr → Option Key)
    (P : Key → Prop) : Prop where
  deiniting : s.deiniting = false
  expandSize : ∀ pool, (s.pools pool).expandSize = (setup pool).expandSize
  flags : ∀ pool, (s.pools pool).flags = (setup pool).flags
  balanced : g.ledger.Balanced (size setup)
  domain : ∀ a, (∃ c, s.memory a = some c) ↔ g.ledger.Allocated (size setup) a
  inUse : ∀ a k c, g.ledger.used a = some k → s.memory a = some c → c.next = .null
  firstChunk : ∀ k r b, (r, b) ∈ g.records k →
    ∃ c, s.memory r = some c ∧ c.data.firstChunk = .chunk (b, 0)
  record : ∀ k r b, (r, b) ∈ g.records k → g.ledger.used r = some puddleKey
  apart : ∀ k k' r b b', (r, b) ∈ g.records k → (r, b') ∈ g.records k' → k = k'
  nodup : ∀ k, ((g.records k).map Prod.fst).Nodup
  blocks : ∀ k, (g.orphans k ++ (g.records k).map Prod.snd).Perm (g.ledger.blocks k)
  bypassed : ∀ k, (setup k.1).bypasses → g.records k = []
  own : ∀ r b, (r, b) ∈ g.records puddleKey → b = r.1
  heldBy : ∀ a k, held a = some k ↔ g.ledger.used a = some k ∧ ∀ k' b, (a, b) ∉ g.records k'
  settled : ∀ k, P k → Settled setup s g k

variable {setup : ℕ → Pool} {s s' : State} {g g' : Shape} {held : Addr → Option Key}
  {P P' : Key → Prop}

section Frames

/-- What a settled key needs is not changed. -/
theorem Settled.congr {k : Key} (h : Settled setup s g k) (hpool : s'.pools k.1 = s.pools k.1)
    (hnext : ∀ a ∈ g.ledger.free k, s'.nextOf a = s.nextOf a)
    (hpuddle : ∀ r b, (r, b) ∈ g.records k → s'.puddleNext r = s.puddleNext r)
    (hfree : g'.ledger.free k = g.ledger.free k)
    (hblocks : g'.ledger.blocks k = g.ledger.blocks k) (hrecords : g'.records k = g.records k) :
    Settled setup s' g' k where
  freelist := by
    rw [hpool, hfree]
    exact h.freelist.congr hnext
  puddlelist := by
    rw [hpool, hrecords]
    apply h.puddlelist.congr
    intro r hr
    obtain ⟨record, hrecord, hr⟩ := List.mem_map.mp hr
    rw [← hr]
    exact hpuddle record.1 record.2 hrecord
  nrofFree := by rw [hpool, hfree, h.nrofFree]
  nrofAllocated := by rw [hpool, hblocks, h.nrofAllocated]

theorem Sound.settle (h : Sound setup s g held P) (hset : ∀ k, P' k → Settled setup s g k) :
    Sound setup s g held P' := { h with settled := hset }

theorem Sound.unsettle (h : Sound setup s g held P) (hsub : ∀ k, P' k → P k) :
    Sound setup s g held P' := h.settle fun k hk => h.settled k (hsub k hk)

theorem Sound.bypasses (h : Sound setup s g held P) (pool : ℕ) :
    (s.pools pool).bypasses = (setup pool).bypasses := by
  unfold Pool.bypasses
  rw [h.flags]

theorem Sound.arrays (h : Sound setup s g held P) (k : Key) :
    (s.pools k.1).arrays k.2 = (setup k.1).arrays k.2 := by
  unfold Pool.arrays
  rw [h.expandSize]

theorem Sound.ofUsed (h : Sound setup s g held P) {a : Addr} {k : Key}
    (ha : g.ledger.used a = some k) : ∃ c, s.memory a = some c ∧ c.next = .null := by
  obtain ⟨c, hc⟩ := (h.domain a).mpr ⟨k, h.balanced.of_used ha⟩
  exact ⟨c, hc, h.inUse a k c ha hc⟩

theorem Sound.ofFree (h : Sound setup s g held P) {a : Addr} {k : Key}
    (ha : a ∈ g.ledger.free k) : ∃ c, s.memory a = some c :=
  (h.domain a).mpr ⟨k, h.balanced.of_free ha⟩

theorem Sound.notRecord (h : Sound setup s g held P) {a : Addr} {k : Key}
    (ha : a ∈ g.ledger.free k) (k' : Key) (b : ℕ) : (a, b) ∉ g.records k' := by
  intro hrecord
  exact h.balanced.used_not_free (h.record k' a b hrecord) k ha

/-- The chunks in memory are overwritten. A link may only change while the chunk is free and its key
is not settled, and the link of a record only while the key of the record is not settled. -/
theorem Sound.rewrite (h : Sound setup s g held P) (memory : Addr → Option Chunk)
    (hnone : ∀ a, s.memory a = none → memory a = none)
    (hsome : ∀ a c, s.memory a = some c → ∃ c', memory a = some c' ∧
      (c'.next = c.next ∨ ∃ k, a ∈ g.ledger.free k ∧ ¬ P k) ∧
      (∀ k b, (a, b) ∈ g.records k → c'.data.firstChunk = c.data.firstChunk ∧
        (P k → c'.data.next = c.data.next))) :
    Sound setup { s with memory := memory } g held P where
  deiniting := h.deiniting
  expandSize := h.expandSize
  flags := h.flags
  balanced := h.balanced
  domain := by
    intro a
    rw [← h.domain a]
    constructor
    · intro hc
      obtain ⟨c, hc⟩ := hc
      cases hold : s.memory a with
      | none =>
        have hc : memory a = some c := hc
        rw [hnone a hold] at hc
        cases hc
      | some c₀ => exact ⟨c₀, rfl⟩
    · intro hc
      obtain ⟨c, hc⟩ := hc
      obtain ⟨c', hc', _⟩ := hsome a c hc
      exact ⟨c', hc'⟩
  inUse := by
    intro a k c' hused hc'
    obtain ⟨c, hc, hnull⟩ := h.ofUsed hused
    obtain ⟨c₁, hc₁, hnext, _⟩ := hsome a c hc
    rw [← Option.some.inj (hc₁.symm.trans hc')]
    rcases hnext with hsame | ⟨k', hfree, _⟩
    · rw [hsame, hnull]
    · exact absurd hfree (h.balanced.used_not_free hused k')
  firstChunk := by
    intro k r b hrecord
    obtain ⟨c, hc, hchunk⟩ := h.firstChunk k r b hrecord
    obtain ⟨c', hc', _, hdata⟩ := hsome r c hc
    exact ⟨c', hc', (hdata k b hrecord).1.trans hchunk⟩
  record := h.record
  apart := h.apart
  nodup := h.nodup
  blocks := h.blocks
  bypassed := h.bypassed
  own := h.own
  heldBy := h.heldBy
  settled := by
    intro k hk
    refine Settled.congr (h.settled k hk) ?_ ?_ ?_ rfl rfl rfl
    · rfl
    · intro a ha
      obtain ⟨c, hc⟩ := h.ofFree ha
      obtain ⟨c', hc', hnext, _⟩ := hsome a c hc
      have hnew : State.nextOf { s with memory := memory } a = some c'.next := State.nextOf_eq hc'
      rw [hnew, State.nextOf_eq hc]
      rcases hnext with hsame | ⟨k', hfree, hk'⟩
      · rw [hsame]
      · exact absurd (h.balanced.free_apart k k' a ha hfree ▸ hk) hk'
    · intro r b hrecord
      obtain ⟨c, hc, _⟩ := h.firstChunk k r b hrecord
      obtain ⟨c', hc', _, hdata⟩ := hsome r c hc
      have hnew : State.puddleNext { s with memory := memory } r = some c'.data.next :=
        State.puddleNext_eq hc'
      rw [hnew, State.puddleNext_eq hc, (hdata k b hrecord).2 hk]

/-- A chunk is written. -/
theorem Sound.store (h : Sound setup s g held P) (a : Addr) (c c' : Chunk)
    (hc : s.memory a = some c) (hnext : c'.next = c.next ∨ ∃ k, a ∈ g.ledger.free k ∧ ¬ P k)
    (hfirst : ∀ k b, (a, b) ∈ g.records k → c'.data.firstChunk = c.data.firstChunk)
    (hlink : ∀ k b, (a, b) ∈ g.records k → P k → c'.data.next = c.data.next) :
    Sound setup (s.store a c') g held P := by
  apply h.rewrite
  · intro b hb
    have hne : b ≠ a := by
      intro hba
      rw [hba, hc] at hb
      cases hb
    exact (State.store_other c' hne).trans hb
  · intro b cb hcb
    by_cases hba : b = a
    · rw [hba] at hcb ⊢
      have hsame : c = cb := Option.some.inj (hc.symm.trans hcb)
      rw [← hsame]
      exact ⟨c', State.store_self c', hnext, fun k b' hmem => ⟨hfirst k b' hmem, hlink k b' hmem⟩⟩
    · exact ⟨cb, (State.store_other c' hba).trans hcb, Or.inl rfl, fun _ _ _ => ⟨rfl, fun _ => rfl⟩⟩

/-- The lists and counters of a key that is not settled may change. -/
theorem Sound.modifyPool (h : Sound setup s g held P) (k : Key) (hk : ¬ P k) (f : Pool → Pool)
    (hf : Agrees k.2 (s.pools k.1) (f (s.pools k.1))) :
    Sound setup (s.modifyPool k.1 f) g held P where
  deiniting := h.deiniting
  expandSize := by
    intro pool
    by_cases hpool : pool = k.1
    · rw [hpool, State.modifyPool_self, hf.expandSize, h.expandSize]
    · rw [State.modifyPool_other f hpool, h.expandSize]
  flags := by
    intro pool
    by_cases hpool : pool = k.1
    · rw [hpool, State.modifyPool_self, hf.flags, h.flags]
    · rw [State.modifyPool_other f hpool, h.flags]
  balanced := h.balanced
  domain := h.domain
  inUse := h.inUse
  firstChunk := h.firstChunk
  record := h.record
  apart := h.apart
  nodup := h.nodup
  blocks := h.blocks
  bypassed := h.bypassed
  own := h.own
  heldBy := h.heldBy
  settled := by
    intro k' hk'
    by_cases hpool : k'.1 = k.1
    · have he : k'.2 ≠ k.2 := fun he => hk (Prod.ext hpool he ▸ hk')
      have hset := h.settled k' hk'
      have hself : (s.modifyPool k.1 f).pools k'.1 = f (s.pools k.1) := by
        rw [hpool, State.modifyPool_self]
      refine ⟨?_, ?_, ?_, ?_⟩
      · rw [hself, hf.freelist k'.2 he, ← hpool]
        exact hset.freelist
      · rw [hself, hf.puddlelist k'.2 he, ← hpool]
        exact hset.puddlelist
      · rw [hself, hf.nrofFree k'.2 he, ← hpool]
        exact hset.nrofFree
      · rw [hself, hf.nrofAllocated k'.2 he, ← hpool]
        exact hset.nrofAllocated
    · exact (h.settled k' hk').congr (State.modifyPool_other f hpool) (fun _ _ => rfl)
        (fun _ _ _ => rfl) rfl rfl rfl

end Frames

end LibAtrinik.Mempool

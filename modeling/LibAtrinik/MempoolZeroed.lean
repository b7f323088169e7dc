import LibAtrinik.MempoolUserdata

namespace LibAtrinik.Mempool

open IntrusiveList BlockLedger

section Data

variable {host : Callbacks} {s s' : Store} {pool : ℕ} {e : Exponent}

theorem bind_eq_ok {α β : Type} {x : Except Fault α} {f : α → Except Fault β} {b : β}
    (h : x >>= f = .ok b) : ∃ a, x = .ok a ∧ f a = .ok b := by
  cases x with
  | error fault => cases h
  | ok a => exact ⟨a, rfl, h⟩

theorem Store.withState_ok {f : State → Except Fault State} (h : s.withState f = .ok s') :
    f s.state = .ok s'.state ∧ s'.userdata = s.userdata ∧ s'.initialised = s.initialised := by
  obtain ⟨state, hstate, hs'⟩ := bind_eq_ok h
  cases hs'
  exact ⟨hstate, rfl, rfl⟩

/-- A store to a chunk leaves the pools alone. -/
theorem State.modify_pools {s s' : State} {a : Addr} {f : Chunk → Chunk}
    (h : s.modify a f = .ok s') : s'.pools = s.pools := by
  obtain ⟨c, _, hs'⟩ := bind_eq_ok h
  cases hs'
  rfl

/-- What the initialisator of a pool makes of a new chunk. -/
def Callbacks.fresh (host : Callbacks) (pool initialised : ℕ) : Userdata :=
  match host.initialisator pool with
  | none => .zero
  | some f => f initialised .zero

theorem Store.initialise_zero {a : Addr} (h : s.userdata a = .zero) :
    (s.initialise host pool a).userdata a = host.fresh pool s.initialised := by
  unfold Store.initialise Callbacks.fresh
  cases host.initialisator pool with
  | none => exact h
  | some f =>
    dsimp only
    rw [Function.update_self, h]

theorem Store.initialise_other {a x : Addr} (h : x ≠ a) :
    (s.initialise host pool a).userdata x = s.userdata x := by
  unfold Store.initialise
  cases host.initialisator pool with
  | none => rfl
  | some f => exact Function.update_of_ne h _ _

/-- The chunks from a place on are initialised, and nothing else. -/
theorem Store.linkChunks_other (n : ℕ) (chunk : Addr) (s s' : Store)
    (h : Store.linkChunks host pool n chunk s = .ok s') :
    s'.state.pools = s.state.pools ∧
      ∀ x : Addr, x.1 ≠ chunk.1 ∨ x.2 < chunk.2 → s'.userdata x = s.userdata x := by
  have hapart (chunk x : Addr) (hx : x.1 ≠ chunk.1 ∨ x.2 < chunk.2) : x ≠ chunk := by
    intro heq
    rw [heq] at hx
    exact hx.elim (fun hne => hne rfl) (Nat.lt_irrefl _)
  fun_induction Store.linkChunks host pool n chunk s with
  | case1 chunk s =>
    cases h
    exact ⟨rfl, fun _ _ => rfl⟩
  | case2 chunk s =>
    obtain ⟨hstate, hdata, _⟩ := Store.withState_ok h
    rw [Store.initialise_state] at hstate
    refine ⟨State.modify_pools hstate, ?_⟩
    intro x hx
    rw [hdata, Store.initialise_other (hapart chunk x hx)]
  | case3 n chunk s ih =>
    obtain ⟨s₁, hlink, hrest⟩ := bind_eq_ok h
    obtain ⟨hstate, hdata, _⟩ := Store.withState_ok hlink
    rw [Store.initialise_state] at hstate
    obtain ⟨hpools, hother⟩ := ih s₁ hrest
    refine ⟨hpools.trans (State.modify_pools hstate), ?_⟩
    intro x hx
    rw [hother x (hx.imp_right Nat.lt_succ_of_lt), hdata,
      Store.initialise_other (hapart chunk x hx)]

theorem Store.linkChunks_first (n : ℕ) (chunk : Addr)
    (h : Store.linkChunks host pool (n+1) chunk s = .ok s') :
    s'.userdata chunk = (s.initialise host pool chunk).userdata chunk := by
  cases n with
  | zero =>
    obtain ⟨_, hdata, _⟩ := Store.withState_ok h
    rw [hdata]
  | succ n =>
    obtain ⟨s₁, hlink, hrest⟩ := bind_eq_ok h
    obtain ⟨_, hdata, _⟩ := Store.withState_ok hlink
    rw [(Store.linkChunks_other _ _ _ _ hrest).2 chunk (Or.inr (Nat.lt_succ_self _)), hdata]

theorem Store.linkChunks_plain (n : ℕ) (chunk : Addr) (s s' : Store)
    (hnone : host.initialisator pool = none)
    (h : Store.linkChunks host pool n chunk s = .ok s') : s'.userdata = s.userdata := by
  have hplain (s : Store) (chunk : Addr) : s.initialise host pool chunk = s := by
    unfold Store.initialise
    rw [hnone]
  fun_induction Store.linkChunks host pool n chunk s with
  | case1 chunk s =>
    cases h
    rfl
  | case2 chunk s =>
    rw [(Store.withState_ok h).2.1, hplain]
  | case3 n chunk s ih =>
    obtain ⟨s₁, hlink, hrest⟩ := bind_eq_ok h
    rw [ih s₁ hrest, (Store.withState_ok hlink).2.1, hplain]

/-- What an expansion has done when it asks for the record of the new puddle. -/
structure Expanding (host : Callbacks) (s : Store) (pool : ℕ) (e : Exponent) (block : ℕ)
    (s₁ : Store) : Prop where
  bypasses : ∀ pool', (s₁.state.pools pool').bypasses = (s.state.pools pool').bypasses
  head : (s₁.state.pools pool).freelist e = .chunk (block, 0)
  heads : ∀ k : Key, k ≠ (pool, e) →
    (s₁.state.pools k.1).freelist k.2 = (s.state.pools k.1).freelist k.2
  other : ∀ x : Addr, x.1 ≠ block → s₁.userdata x = s.userdata x
  first : s₁.userdata (block, 0) = host.fresh pool s.initialised
  plain : host.initialisator pool = none →
    ∀ i < (s.state.pools pool).arrays e, s₁.userdata (block, i) = .zero

/-- The new chunks have been linked, with the pool changed for one exponent. -/
theorem Store.linkChunks_expanding {block n : ℕ} {f : Pool → Pool} {s₁ : Store}
    (hf : Agrees e (s.state.pools pool) (f (s.state.pools pool)))
    (hhead : (f (s.state.pools pool)).freelist e = .chunk (block, 0))
    (hle : (s.state.pools pool).arrays e ≤ n+1)
    (hlink : Store.linkChunks host pool (n+1) (block, 0)
      ((s.xcalloc block (n+1)).modifyPool pool f) = .ok s₁) :
    Expanding host s pool e block s₁ := by
  obtain ⟨hpools, hother⟩ := Store.linkChunks_other _ _ _ _ hlink
  have hzero (i : ℕ) (hi : i < n+1) : (s.xcalloc block (n+1)).userdata (block, i) = .zero :=
    if_pos ⟨rfl, hi⟩
  have hself : s₁.state.pools pool = f (s.state.pools pool) := by
    rw [hpools]
    exact State.modifyPool_self (s := s.state.xcalloc block (n+1)) pool f
  refine ⟨?_, ?_, ?_, ?_, ?_, ?_⟩
  · intro pool'
    by_cases hpool : pool' = pool
    · unfold Pool.bypasses
      rw [hpool, hself, hf.flags]
    · rw [hpools, Store.modifyPool_state, State.modifyPool_other _ hpool]
      rfl
  · rw [hself]
    exact hhead
  · intro k hk
    rw [hpools]
    exact (onlyAt_modifyPool (s.state.xcalloc block (n+1)) (pool, e) f hf).freelist k hk
  · intro x hx
    rw [hother x (Or.inl hx)]
    exact if_neg fun hand => hx hand.1
  · -- the first chunk is initialised once, and the later calls are for other chunks
    rw [Store.linkChunks_first n _ hlink]
    exact Store.initialise_zero (hzero 0 (Nat.succ_pos n))
  · intro hnone i hi
    rw [Store.linkChunks_plain _ _ _ _ hnone hlink]
    exact hzero i (by omega)

theorem Store.mempoolExpand_ok {getPuddle : Store → Except Fault (Addr × Store)} {block : ℕ}
    (h : Store.mempoolExpand host getPuddle block s pool e = .ok s') :
    ∃ s₁ p s₂, Expanding host s pool e block s₁ ∧ getPuddle s₁ = .ok (p, s₂) ∧
      s'.userdata = s₂.userdata := by
  unfold Store.mempoolExpand at h
  by_cases hfree : (s.state.pools pool).nrofFree e ≠ 0
  · rw [if_pos hfree] at h
    cases h
  rw [if_neg hfree] at h
  dsimp only at h
  -- a new block has one chunk at least
  obtain ⟨n, hn, hle⟩ : ∃ n, (if (s.state.pools pool).arrays e = 0 then 1
      else (s.state.pools pool).arrays e) = n+1 ∧ (s.state.pools pool).arrays e ≤ n+1 := by
    by_cases hnone : (s.state.pools pool).arrays e = 0
    · exact ⟨0, if_pos hnone, by omega⟩
    · refine ⟨(s.state.pools pool).arrays e-1, ?_, by omega⟩
      rw [if_neg hnone]
      omega
  rw [hn] at h
  obtain ⟨s₁, hlink, h⟩ := bind_eq_ok h
  obtain ⟨⟨p, s₂⟩, hget, h⟩ := bind_eq_ok h
  obtain ⟨s₃, hrecord, hs'⟩ := bind_eq_ok h
  have hf : Agrees e (s.state.pools pool) ((((s.state.pools pool).setFreelist e
      (.chunk (block, 0))).setNrofAllocated e ((s.state.pools pool).nrofAllocated e+(n+1))).setNrofFree
        e (n+1)) :=
    ((agrees_setFreelist _ _ _).trans (agrees_setNrofAllocated _ _ _)).trans
      (agrees_setNrofFree _ _ _)
  have hexpanding := Store.linkChunks_expanding (f := fun p =>
    ((p.setFreelist e (.chunk (block, 0))).setNrofAllocated e
      (p.nrofAllocated e+(n+1))).setNrofFree e (n+1)) hf (Function.update_self _ _ _) hle hlink
  refine ⟨s₁, p, s₂, hexpanding, hget, ?_⟩
  cases hs'
  exact (Store.withState_ok hrecord).2.1

theorem Store.takeChunk_ok {a : Addr} (h : s.takeChunk pool e = .ok (a, s')) :
    (s.state.pools pool).freelist e = .chunk a ∧ s'.userdata = s.userdata := by
  obtain ⟨⟨newObj, state⟩, htake, hs'⟩ := bind_eq_ok h
  cases hs'
  obtain ⟨a', haddr, htake⟩ := bind_eq_ok htake
  obtain ⟨c, _, htake⟩ := bind_eq_ok htake
  obtain ⟨state', _, hstate⟩ := bind_eq_ok htake
  cases hstate
  refine ⟨?_, rfl⟩
  cases hhead : (s.state.pools pool).freelist e with
  | null =>
    rw [hhead] at haddr
    cases haddr
  | endMarker =>
    rw [hhead] at haddr
    cases haddr
  | chunk a' =>
    rw [hhead] at haddr
    cases haddr
    rfl

/-- A chunk that is got from the free list has been cleared. -/
theorem Store.mempoolGetChunk_reuse {blocks : List ℕ} {a : Addr}
    (hbypass : (s.state.pools pool).bypasses = false)
    (hfree : (s.state.pools pool).nrofFree e ≠ 0)
    (h : Store.mempoolGetChunk host blocks s pool e = .ok (a, s')) :
    (s.state.pools pool).freelist e = .chunk a ∧
      s'.userdata = (s.clear a (host.bytes pool e)).userdata := by
  rw [Store.mempoolGetChunk.eq_def, if_neg (Bool.not_eq_true _ ▸ hbypass), if_neg hfree] at h
  obtain ⟨head, haddr, h⟩ := bind_eq_ok h
  obtain ⟨s₁, hclear, htake⟩ := bind_eq_ok h
  obtain ⟨hstate, hdata, _⟩ := Store.withState_ok hclear
  obtain ⟨hhead, hsame⟩ := Store.takeChunk_ok htake
  have hpools : s₁.state.pools = s.state.pools := State.modify_pools hstate
  rw [hpools] at hhead
  rw [hhead] at haddr
  cases haddr
  exact ⟨hhead, hsame.trans hdata⟩

/-- A chunk is got after the pool has been expanded. -/
theorem Store.mempoolGetChunk_expand {blocks : List ℕ} {block : ℕ} {a : Addr}
    (hbypass : (s.state.pools pool).bypasses = false)
    (hfree : (s.state.pools pool).nrofFree e = 0)
    (h : Store.mempoolGetChunk host (block :: blocks) s pool e = .ok (a, s')) :
    ∃ s₁ p s₂, Expanding host s pool e block s₁ ∧
      Store.mempoolGetChunk host blocks s₁ poolPuddle 0 = .ok (p, s₂) ∧
      s'.userdata = s₂.userdata := by
  rw [Store.mempoolGetChunk.eq_def, if_neg (Bool.not_eq_true _ ▸ hbypass), if_pos hfree] at h
  obtain ⟨s₃, hexpand, htake⟩ := bind_eq_ok h
  obtain ⟨s₁, p, s₂, hs₁, hget, hdata⟩ := Store.mempoolExpand_ok hexpand
  exact ⟨s₁, p, s₂, hs₁, hget, (Store.takeChunk_ok htake).2.trans hdata⟩

theorem Store.clear_other {a x : Addr} (size : ℕ) (h : x ≠ a) :
    (s.clear a size).userdata x = s.userdata x := Function.update_of_ne h _ _

theorem Store.reuse_other {blocks : List ℕ} {a x : Addr}
    (hbypass : (s.state.pools pool).bypasses = false)
    (hfree : (s.state.pools pool).nrofFree e ≠ 0)
    (h : Store.mempoolGetChunk host blocks s pool e = .ok (a, s'))
    (hhead : (s.state.pools pool).freelist e ≠ .chunk x) : s'.userdata x = s.userdata x := by
  obtain ⟨hfirst, hdata⟩ := Store.mempoolGetChunk_reuse hbypass hfree h
  rw [hdata]
  apply Store.clear_other
  intro hxa
  exact hhead (hxa ▸ hfirst)

/-- Getting the record of a puddle leaves the data alone but for the new blocks and the first free
record. -/
theorem Store.mempoolGetChunk_puddle (blocks : List ℕ) (s s' : Store) (a x : Addr)
    (hbypass : (s.state.pools poolPuddle).bypasses = false)
    (h : Store.mempoolGetChunk host blocks s poolPuddle 0 = .ok (a, s')) (hx : x.1 ∉ blocks)
    (hhead : (s.state.pools poolPuddle).freelist 0 ≠ .chunk x) :
    s'.userdata x = s.userdata x := by
  induction blocks generalizing s s' a with
  | nil =>
    by_cases hfree : (s.state.pools poolPuddle).nrofFree 0 = 0
    · rw [Store.mempoolGetChunk.eq_def, if_neg (Bool.not_eq_true _ ▸ hbypass), if_pos hfree] at h
      cases h
    · exact Store.reuse_other hbypass hfree h hhead
  | cons block blocks ih =>
    by_cases hfree : (s.state.pools poolPuddle).nrofFree 0 = 0
    · obtain ⟨s₁, p, s₂, hs₁, hget, hdata⟩ := Store.mempoolGetChunk_expand hbypass hfree h
      have hblock : x.1 ≠ block := fun heq => hx (heq ▸ List.mem_cons_self)
      rw [hdata, ← hs₁.other x hblock]
      apply ih s₁ s₂ p ((hs₁.bypasses poolPuddle).trans hbypass) hget
      · exact fun hmem => hx (List.mem_cons_of_mem _ hmem)
      · -- the first free record is in the new block
        rw [hs₁.head]
        intro heq
        exact hblock (congrArg Prod.fst (Pointer.chunk.inj heq)).symm
    · exact Store.reuse_other hbypass hfree h hhead

end Data

section Get

/-- The bytes behind a chunk are all zero. -/
def Callbacks.Zeroed (host : Callbacks) (pool : ℕ) (e : Exponent) (data : Userdata) : Prop :=
  ∀ i < host.bytes pool e, data i = 0

variable {setup : ℕ → Pool} {s s' : Store} {g : Shape} {held : Addr → Option Key} {host : Callbacks}

/-- The first free chunk of a key is not in a new block. -/
theorem Sound.head_old {s : State} (h : Sound setup s g held fun _ => True) {b : ℕ}
    (hfresh : Fresh s b) (k : Key) (i : ℕ) :
    (s.pools k.1).freelist k.2 ≠ .chunk (b, i) := by
  intro hhead
  have hchain := (h.settled k trivial).freelist
  rw [hhead] at hchain
  cases hfree : g.ledger.free k with
  | nil =>
    rw [hfree] at hchain
    cases hchain
  | cons a rest =>
    rw [hfree] at hchain
    have ha : (b, i) = a := Pointer.chunk.inj hchain.1
    have hmem : (b, i) ∈ g.ledger.free k := by
      rw [hfree, ha]
      exact List.mem_cons_self
    exact h.notFresh hfresh (Or.inl hmem) rfl

theorem Store.get_exists (host : Callbacks) {blocks : List ℕ} {pool : ℕ} {e : Exponent}
    {a : Addr} {state : State}
    (h : Mempool.mempoolGetChunk blocks s.state pool e = .ok (a, state)) :
    ∃ s', Store.mempoolGetChunk host blocks s pool e = .ok (a, s') ∧ s'.state = state := by
  rw [← Store.mempoolGetChunk_state host] at h
  cases hget : Store.mempoolGetChunk host blocks s pool e with
  | error fault =>
    rw [hget] at h
    cases h
  | ok found =>
    rw [hget] at h
    cases h
    exact ⟨found.2, rfl, rfl⟩

theorem Callbacks.fresh_plain {pool : ℕ} (h : host.initialisator pool = none) (n : ℕ) :
    host.fresh pool n = .zero := by
  unfold Callbacks.fresh
  rw [h]

variable (hsetup : setup poolPuddle = mempoolCreate 10 allowFreeing)
include hsetup

/-- What is in the chunk that is got after an expansion: the first one of the new block, but for the
records of puddles, of which the first one is taken for the new puddle. -/
theorem Store.expanded_data (host : Callbacks) (h : Sound setup s.state g held fun _ => True)
    (k : Key) (hbypass : (setup k.1).bypasses = false) (hfree : (s.state.pools k.1).nrofFree k.2 = 0)
    (b b' : ℕ) (hfresh : Fresh s.state b) (hfresh' : Fresh s.state b') (hne : b' ≠ b) :
    ∃ a s', Store.mempoolGetChunk host [b, b'] s k.1 k.2 = .ok (a, s') ∧
      s'.userdata a = host.fresh k.1 s.initialised := by
  have hempty : g.ledger.free k = [] := by
    have hcount := (h.settled k trivial).nrofFree
    rw [hfree] at hcount
    exact List.length_eq_zero_iff.mp hcount.symm
  have hpuddle := puddle_not_bypassed hsetup
  have hb (i : ℕ) : ((b, i) : Addr).1 ∉ [b'] := by
    intro hmem
    exact hne (List.mem_singleton.mp hmem).symm
  by_cases hrecords : k = puddleKey
  · rw [hrecords] at hempty hfree ⊢
    obtain ⟨state, _, hget, _⟩ :=
      mempoolGet_puddle_expand hsetup h trivial hempty b [b'] hfresh
    obtain ⟨s', hget, _⟩ := Store.get_exists host hget
    obtain ⟨s₁, p, s₂, hs₁, hrecord, hdata⟩ :=
      Store.mempoolGetChunk_expand ((h.bypasses poolPuddle).trans hpuddle) hfree hget
    -- the record is the chunk before it
    have hkept : s₂.userdata (b, 1) = s₁.userdata (b, 1) := by
      apply Store.mempoolGetChunk_puddle [b'] s₁ s₂ p (b, 1) ?_ hrecord (hb 1)
      · have hhead : (s₁.state.pools poolPuddle).freelist 0 = .chunk (b, 0) := hs₁.head
        rw [hhead]
        intro heq
        exact Nat.zero_ne_one (congrArg Prod.snd (Pointer.chunk.inj heq))
      · exact ((hs₁.bypasses poolPuddle).trans (h.bypasses poolPuddle)).trans hpuddle
    refine ⟨(b, 1), s', hget, ?_⟩
    have hplain : s₁.userdata (b, 1) = .zero := by
      apply hs₁.plain host.puddle 1
      have harrays : (s.state.pools poolPuddle).arrays 0 = (setup poolPuddle).arrays 0 :=
        h.arrays puddleKey
      change 1 < (s.state.pools poolPuddle).arrays 0
      rw [harrays, hsetup]
      decide
    calc s'.userdata (b, 1) = s₂.userdata (b, 1) := congrFun hdata _
      _ = s₁.userdata (b, 1) := hkept
      _ = .zero := hplain
      _ = host.fresh poolPuddle s.initialised := (Callbacks.fresh_plain host.puddle _).symm
  · obtain ⟨_, state, _, hget, _⟩ := Mempool.mempoolGetChunk_expand hsetup h k trivial trivial
      hbypass hrecords hempty b b' hfresh hfresh' hne
    obtain ⟨s', hget, _⟩ := Store.get_exists host hget
    obtain ⟨s₁, p, s₂, hs₁, hrecord, hdata⟩ :=
      Store.mempoolGetChunk_expand ((h.bypasses k.1).trans hbypass) hfree hget
    -- the record comes from elsewhere, as the new block is not known to its pool
    have hkept : s₂.userdata (b, 0) = s₁.userdata (b, 0) := by
      apply Store.mempoolGetChunk_puddle [b'] s₁ s₂ p (b, 0) ?_ hrecord (hb 0)
      · have hhead : (s₁.state.pools poolPuddle).freelist 0 =
            (s.state.pools poolPuddle).freelist 0 := hs₁.heads puddleKey (Ne.symm hrecords)
        rw [hhead]
        exact h.head_old hfresh puddleKey 0
      · exact ((hs₁.bypasses poolPuddle).trans (h.bypasses poolPuddle)).trans hpuddle
    refine ⟨(b, 0), s', hget, ?_⟩
    calc s'.userdata (b, 0) = s₂.userdata (b, 0) := congrFun hdata _
      _ = s₁.userdata (b, 0) := hkept
      _ = host.fresh k.1 s.initialised := hs₁.first

/-- The data of a chunk that is got is zero if it comes from the free list, and what the
initialisator has made of it if the pool had to be expanded. -/
theorem Store.zeroed_iff (h : Sound setup s.state g held fun _ => True) (k : Key)
    (hbypass : (setup k.1).bypasses = false) (b b' : ℕ) (hfresh : Fresh s.state b)
    (hfresh' : Fresh s.state b') (hne : b' ≠ b) :
    ∃ a s', Store.mempoolGetChunk host [b, b'] s k.1 k.2 = .ok (a, s') ∧
      (host.Zeroed k.1 k.2 (s'.userdata a) ↔
        (s.state.pools k.1).nrofFree k.2 ≠ 0 ∨
          host.Zeroed k.1 k.2 (host.fresh k.1 s.initialised)) := by
  by_cases hfree : (s.state.pools k.1).nrofFree k.2 = 0
  · obtain ⟨a, s', hget, hdata⟩ :=
      Store.expanded_data hsetup host h k hbypass hfree b b' hfresh hfresh' hne
    refine ⟨a, s', hget, ?_⟩
    rw [hdata]
    exact ⟨Or.inr, fun hor => hor.resolve_left (not_not_intro hfree)⟩
  · obtain ⟨a, state, _, hget, _⟩ :=
      mempoolGetChunk_spec hsetup h k trivial trivial b b' hfresh hfresh' hne
    obtain ⟨s', hget, _⟩ := Store.get_exists host hget
    obtain ⟨_, hdata⟩ :=
      Store.mempoolGetChunk_reuse ((h.bypasses k.1).trans hbypass) hfree hget
    refine ⟨a, s', hget, fun _ => Or.inl hfree, fun _ => ?_⟩
    intro i hi
    rw [hdata]
    change Function.update s.userdata a _ a i = 0
    rw [Function.update_self]
    exact if_pos hi

end Get

section Histories

/-- What is done with chunks. The data of any chunks are written over by users, constructors and
destructors. -/
inductive Use where
  | getChunk (pool : ℕ) (e : Exponent) (block block' : ℕ)
  | returnChunk (pool : ℕ) (e : Exponent) (chunk : Addr)
  | write (userdata : Addr → Userdata)

/-- The pools with the data, and for each chunk in the hands of a user where it came from. -/
structure History where
  store : Store
  held : Addr → Option Key

def History.run (h : History) : Run := ⟨h.store.state, h.held⟩

def History.init (expand : ℕ → ℕ) (flags : ℕ → UInt32) : History where
  store := ⟨State.init expand flags, fun _ => .zero, 0⟩
  held := fun _ => none

variable (host : Callbacks)

def History.use (h : History) : Use → Except Fault History
  | .getChunk pool e block block' => do
    let (a, s) ← Store.mempoolGetChunk host [block, block'] h.store pool e
    return ⟨s, Function.update h.held a (some (pool, e))⟩
  | .returnChunk pool e chunk => do
    let s ← h.store.withState fun s => mempoolReturnChunk s pool e chunk
    return ⟨s, Function.update h.held chunk none⟩
  | .write userdata => return { h with store := { h.store with userdata := userdata } }

def Use.Allowed (h : History) : Use → Prop
  | .getChunk pool e block block' => Mempool.Allowed h.run (.getChunk pool e block block')
  | .returnChunk pool e chunk => Mempool.Allowed h.run (.returnChunk pool e chunk)
  | .write _ => True

/-- Any gets and returns, with any writes in between. -/
inductive Reached (expand : ℕ → ℕ) (flags : ℕ → UInt32) : History → Prop where
  | init : Reached expand flags (History.init expand flags)
  | use {h h' : History} {u : Use} : Reached expand flags h → u.Allowed h →
      h.use host u = .ok h' → Reached expand flags h'

variable {host} {expand : ℕ → ℕ} {flags : ℕ → UInt32} {h : History}

/-- A use with the data left out is a step of the pools. -/
theorem use_run {h' : History} {u : Use} (huse : h.use host u = .ok h') :
    (∃ event, perform h.run event = .ok h'.run ∧ (u.Allowed h → Mempool.Allowed h.run event) ∧
      NarrowStep h.run event ∧ CoveredStep h.run event) ∨ h'.run = h.run := by
  cases u with
  | getChunk pool e block block' =>
    obtain ⟨⟨a, s⟩, hget, hh'⟩ := bind_eq_ok huse
    cases hh'
    refine Or.inl ⟨.getChunk pool e block block', ?_, id, trivial, trivial⟩
    have hstate := Store.mempoolGetChunk_state host [block, block'] h.store pool e
    rw [hget] at hstate
    have hstate : mempoolGetChunk [block, block'] h.run.state pool e = .ok (a, s.state) :=
      hstate.symm
    change (mempoolGetChunk [block, block'] h.run.state pool e >>= _) = _
    rw [hstate]
    rfl
  | returnChunk pool e chunk =>
    obtain ⟨s, hreturn, hh'⟩ := bind_eq_ok huse
    cases hh'
    refine Or.inl ⟨.returnChunk pool e chunk, ?_, id, trivial, trivial⟩
    have hstate : mempoolReturnChunk h.run.state pool e chunk = .ok s.state :=
      (Store.withState_ok hreturn).1
    change (mempoolReturnChunk h.run.state pool e chunk >>= _) = _
    rw [hstate]
    rfl
  | write userdata =>
    cases huse
    exact Or.inr rfl

theorem Reached.steady (h : History) (hr : Reached host expand flags h) :
    ∃ g, Steady (State.init expand flags).pools h.run g := by
  induction hr with
  | init => exact ⟨Shape.empty, steady_init expand flags⟩
  | use _ hallowed huse ih =>
    obtain ⟨g, hg⟩ := ih
    rcases use_run huse with ⟨event, hperform, hevent, hnarrow, hcovered⟩ | hsame
    · obtain ⟨r', g', hperform', hg', _⟩ := perform_spec (init_poolPuddle expand flags) hg event
        (hevent hallowed) hnarrow hcovered
      rw [hperform] at hperform'
      cases hperform'
      exact ⟨g', hg'⟩
    · rw [hsame]
      exact ⟨g, hg⟩

/-- Whatever is allowed succeeds. -/
theorem Reached.progress (hr : Reached host expand flags h) (u : Use) (hallowed : u.Allowed h) :
    ∃ h', h.use host u = .ok h' ∧ Reached host expand flags h' := by
  suffices hsome : ∃ h', h.use host u = .ok h' by
    obtain ⟨h', huse⟩ := hsome
    exact ⟨h', huse, hr.use hallowed huse⟩
  obtain ⟨g, hg⟩ := hr.steady
  have hsetup := init_poolPuddle expand flags
  cases u with
  | getChunk pool e block block' =>
    obtain ⟨a, state, hget, _⟩ := hg.getChunk hsetup pool e block block' hallowed
    have hget : mempoolGetChunk [block, block'] h.store.state pool e = .ok (a, state) := hget
    obtain ⟨s, hget, _⟩ := Store.get_exists host hget
    refine ⟨⟨s, Function.update h.held a (some (pool, e))⟩, ?_⟩
    change (Store.mempoolGetChunk host [block, block'] h.store pool e >>= _) = _
    rw [hget]
    rfl
  | returnChunk pool e chunk =>
    obtain ⟨r', _, hperform, _⟩ :=
      perform_spec hsetup hg (.returnChunk pool e chunk) hallowed trivial trivial
    obtain ⟨state, hreturn, _⟩ := bind_eq_ok hperform
    have hreturn : mempoolReturnChunk h.store.state pool e chunk = .ok state := hreturn
    refine ⟨⟨{ h.store with state := state }, Function.update h.held chunk none⟩, ?_⟩
    change (h.store.withState (fun s => mempoolReturnChunk s pool e chunk) >>= _) = _
    rw [Store.withState, hreturn]
    rfl
  | write userdata => exact ⟨_, rfl⟩

end Histories

section Statements

/-- After any history a get of a chunk succeeds, and what is presented is all zero exactly if a
chunk was free or the initialisator leaves a new chunk as it is. -/
theorem userdata_zero_iff (host : Callbacks) (expand : ℕ → ℕ) (flags : ℕ → UInt32) (h : History)
    (hr : Reached host expand flags h) (pool : ℕ) (e : Exponent) (block block' : ℕ)
    (hbypass : (h.store.state.pools pool).bypasses = false)
    (hallowed : Allowed h.run (.getChunk pool e block block')) :
    ∃ a s, Store.mempoolGetChunk host [block, block'] h.store pool e = .ok (a, s) ∧
      (host.Zeroed pool e (s.userdata a) ↔
        (h.store.state.pools pool).nrofFree e ≠ 0 ∨
          host.Zeroed pool e (host.fresh pool h.store.initialised)) := by
  obtain ⟨g, hg⟩ := hr.steady
  obtain ⟨hfresh, hfresh', hne⟩ := hallowed
  have hsound : Sound (State.init expand flags).pools h.store.state g h.held fun _ => True :=
    hg.sound
  apply Store.zeroed_iff (init_poolPuddle expand flags) hsound (pool, e) ?_ block block' hfresh
    hfresh' hne
  rw [← hsound.bypasses]
  exact hbypass

/-- The first pool of a user has chunks of four bytes, and its initialisator writes into the first
one. -/
def stamping : Callbacks where
  chunksize := fun _ => 4
  initialisator := fun pool =>
    if pool = 1 then some fun _ data => Function.update data 0 7 else none
  puddle := rfl

/-- The first chunk of the pool. -/
theorem userdata_zero_iff_first :
    ∃ a s, Store.mempoolGetChunk stamping [5, 6] (History.init (fun _ => 4) fun _ => 0).store 1 0 =
        .ok (a, s) ∧
      (stamping.Zeroed 1 0 (s.userdata a) ↔
        ((History.init (fun _ => 4) fun _ => 0).store.state.pools 1).nrofFree 0 ≠ 0 ∨
          stamping.Zeroed 1 0
            (stamping.fresh 1 (History.init (fun _ => 4) fun _ => 0).store.initialised)) :=
  userdata_zero_iff stamping (fun _ => 4) (fun _ => 0) _ .init 1 0 5 6 (by decide)
    ⟨fresh_init _ _ 5, fresh_init _ _ 6, by decide⟩

/-- The first chunk of a pool shows what its initialisator has written. -/
theorem userdata_not_zero :
    ¬∀ (host : Callbacks) (expand : ℕ → ℕ) (flags : ℕ → UInt32) (h : History),
      Reached host expand flags h → ∀ (pool : ℕ) (e : Exponent) (block block' : ℕ),
        (h.store.state.pools pool).bypasses = false →
        Allowed h.run (.getChunk pool e block block') →
          ∃ a s, Store.mempoolGetChunk host [block, block'] h.store pool e = .ok (a, s) ∧
            host.Zeroed pool e (s.userdata a) := by
  intro hall
  have hfresh (b : ℕ) := fresh_init (fun _ => 4) (fun _ => 0) b
  obtain ⟨a, s, hget, hzero⟩ := hall stamping (fun _ => 4) (fun _ => 0) _ .init 1 0 5 6 (by decide)
    ⟨hfresh 5, hfresh 6, by decide⟩
  let s₀ := (History.init (fun _ => 4) fun _ => 0).store
  have hsound : Sound (State.init (fun _ => 4) fun _ => 0).pools s₀.state Shape.empty
    (fun _ => none) fun _ => True := (steady_init _ _).sound
  obtain ⟨a', s', hget', hdata⟩ := Store.expanded_data (init_poolPuddle _ _) stamping hsound (1, 0)
    (by decide) rfl 5 6 (hfresh 5) (hfresh 6) (by decide)
  have hget : Store.mempoolGetChunk stamping [5, 6] s₀ 1 0 = .ok (a, s) := hget
  rw [hget] at hget'
  cases hget'
  have hbyte : s.userdata a 0 = 7 := by
    rw [hdata]
    rfl
  rw [hzero 0 (by decide)] at hbyte
  cases hbyte

end Statements

end LibAtrinik.Mempool

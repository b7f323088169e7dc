import LibAtrinik.MempoolCustody

namespace LibAtrinik.Mempool

open IntrusiveList BlockLedger

variable {setup : ℕ → Pool} {s : State} {g : Shape} {held : Addr → Option Key} {P : Key → Prop}

/-- All keys but one are as settled as before. -/
theorem Sound.except (h : Sound setup s g held P) (k : Key) :
    Sound setup s g held fun k' => P k' ∧ k' ≠ k := h.unsettle fun _ => And.left

theorem Sound.resettle {k : Key} (h : Sound setup s g held fun k' => P k' ∧ k' ≠ k)
    (hset : Settled setup s g k) : Sound setup s g held P := by
  apply h.settle
  intro k' hk'
  by_cases hne : k' = k
  · rw [hne]
    exact hset
  · exact h.settled k' ⟨hk', hne⟩

/-- Of the lists and counters only those of one key may differ. -/
structure OnlyAt (k : Key) (s s' : State) : Prop where
  freelist : ∀ k', k' ≠ k → (s'.pools k'.1).freelist k'.2 = (s.pools k'.1).freelist k'.2
  nrofFree : ∀ k', k' ≠ k → (s'.pools k'.1).nrofFree k'.2 = (s.pools k'.1).nrofFree k'.2
  nrofAllocated : ∀ k', k' ≠ k →
    (s'.pools k'.1).nrofAllocated k'.2 = (s.pools k'.1).nrofAllocated k'.2
  puddlelist : ∀ k', k' ≠ k → (s'.pools k'.1).puddlelist k'.2 = (s.pools k'.1).puddlelist k'.2

theorem onlyAt_modifyPool (s : State) (k : Key) (f : Pool → Pool)
    (hf : Agrees k.2 (s.pools k.1) (f (s.pools k.1))) : OnlyAt k s (s.modifyPool k.1 f) := by
  have hcases : ∀ k', k' ≠ k → (s.modifyPool k.1 f).pools k'.1 = s.pools k'.1 ∨
      (k'.1 = k.1 ∧ k'.2 ≠ k.2) := by
    intro k' hk'
    by_cases hpool : k'.1 = k.1
    · exact Or.inr ⟨hpool, fun he => hk' (Prod.ext hpool he)⟩
    · exact Or.inl (State.modifyPool_other f hpool)
  refine ⟨?_, ?_, ?_, ?_⟩ <;> intro k' hk' <;> rcases hcases k' hk' with hsame | ⟨hpool, he⟩
  · rw [hsame]
  · rw [hpool, State.modifyPool_self, hf.freelist k'.2 he]
  · rw [hsame]
  · rw [hpool, State.modifyPool_self, hf.nrofFree k'.2 he]
  · rw [hsame]
  · rw [hpool, State.modifyPool_self, hf.nrofAllocated k'.2 he]
  · rw [hsame]
  · rw [hpool, State.modifyPool_self, hf.puddlelist k'.2 he]

section Take

/-- The first chunk of the free list is taken. -/
theorem takeChunk_spec (h : Sound setup s g held P) (k : Key) (hk : P k) (a : Addr)
    (rest : List Addr) (hfree : g.ledger.free k = a :: rest) :
    ∃ s', takeChunk s k.1 k.2 = .ok (a, s') ∧
      Sound setup s' (g.take k a rest) (Function.update held a (some k)) P := by
  have hset := h.settled k hk
  have hchain := hset.freelist
  rw [hfree] at hchain
  obtain ⟨hhead, following, hlink, hrest⟩ := hchain
  have hin : a ∈ g.ledger.free k := hfree ▸ List.mem_cons_self
  have hnodup := h.balanced.free_nodup k
  rw [hfree, List.nodup_cons] at hnodup
  obtain ⟨c, hc⟩ := h.ofFree hin
  rw [State.nextOf_eq hc] at hlink
  let f : Pool → Pool := fun p => (p.setFreelist k.2 c.next).setNrofFree k.2 (p.nrofFree k.2-1)
  let s₁ := s.modifyPool k.1 f
  let s₂ := s₁.store a { c with next := .null }
  have hf : Agrees k.2 (s.pools k.1) (f (s.pools k.1)) :=
    (agrees_setFreelist _ _ _).trans (agrees_setNrofFree _ _ _)
  have hk' : ¬ (P k ∧ k ≠ k) := fun hand => hand.2 rfl
  have hc₁ : s₁.memory a = some c := hc
  have h₂ : Sound setup s₂ g held fun k' => P k' ∧ k' ≠ k := by
    apply ((h.except k).modifyPool k hk' f hf).store a c _ hc₁
    · exact Or.inr ⟨k, hin, hk'⟩
    · intro _ _ _
      rfl
    · intro _ _ _ _
      rfl
  have hnull : ∀ c', s₂.memory a = some c' → c'.next = .null := by
    intro c' hc'
    rw [State.store_self] at hc'
    rw [← Option.some.inj hc']
  refine ⟨s₂, ?_, (h₂.take k hk' a rest hfree hnull).resettle ⟨?_, ?_, ?_, ?_⟩⟩
  · unfold takeChunk
    rw [hhead]
    change (s.load a >>= fun c => _) = _
    rw [State.load_ok hc]
    change (s₁.setNext a .null >>= fun s => _) = _
    rw [State.setNext_ok .null hc₁]
    rfl
  · -- the free list goes on behind the chunk
    have hlist : (s₂.pools k.1).freelist k.2 = following := by
      change ((s.modifyPool k.1 f).pools k.1).freelist k.2 = following
      rw [State.modifyPool_self]
      exact (Function.update_self _ _ _).trans (Option.some.inj hlink)
    have hrest' : (g.take k a rest).ledger.free k = rest := Function.update_self _ _ _
    rw [hlist, hrest']
    apply hrest.congr
    intro b hb
    apply State.nextOf_congr
    apply State.store_other
    intro hba
    exact hnodup.1 (hba ▸ hb)
  · have hlist : (s₂.pools k.1).puddlelist k.2 = (s.pools k.1).puddlelist k.2 := by
      change ((s.modifyPool k.1 f).pools k.1).puddlelist k.2 = _
      rw [State.modifyPool_self]
      rfl
    have hlinks : s₂.puddleNext = s.puddleNext := State.puddleNext_setLink hc₁ .null
    rw [hlist]
    apply hset.puddlelist.congr
    intro r _
    exact congrFun hlinks r
  · have hcount : (s₂.pools k.1).nrofFree k.2 = (s.pools k.1).nrofFree k.2-1 := by
      change ((s.modifyPool k.1 f).pools k.1).nrofFree k.2 = _
      rw [State.modifyPool_self]
      exact Function.update_self _ _ _
    have hrest' : (g.take k a rest).ledger.free k = rest := Function.update_self _ _ _
    rw [hcount, hrest', hset.nrofFree, hfree, List.length_cons, Nat.add_sub_cancel]
  · have hcount : (s₂.pools k.1).nrofAllocated k.2 = (s.pools k.1).nrofAllocated k.2 := by
      change ((s.modifyPool k.1 f).pools k.1).nrofAllocated k.2 = _
      rw [State.modifyPool_self]
      rfl
    rw [hcount]
    exact hset.nrofAllocated

theorem Sound.unused_held (h : Sound setup s g held P) {a : Addr} (ha : g.ledger.used a = none) :
    held a = none := by
  cases hheld : held a with
  | none => rfl
  | some k =>
    rw [((h.heldBy a k).mp hheld).1] at ha
    cases ha

theorem Sound.freshUnused (h : Sound setup s g held P) {b : ℕ} (hfresh : Fresh s b) (i : ℕ) :
    g.ledger.used (b, i) = none := by
  cases hused : g.ledger.used (b, i) with
  | none => rfl
  | some k => exact absurd rfl (h.notFresh hfresh (Or.inr hused))

theorem Sound.free_held (h : Sound setup s g held P) {k : Key} {a : Addr}
    (ha : a ∈ g.ledger.free k) : held a = none := h.unused_held (h.balanced.unused k a ha)

/-- A chunk is got from a pool that has a free one. -/
theorem mempoolGetChunk_free (h : Sound setup s g held P) (k : Key) (hk : P k) (blocks : List ℕ)
    (hbypass : (setup k.1).bypasses = false) (a : Addr) (rest : List Addr)
    (hfree : g.ledger.free k = a :: rest) :
    ∃ s', mempoolGetChunk blocks s k.1 k.2 = .ok (a, s') ∧
      Sound setup s' (g.take k a rest) (Function.update held a (some k)) P := by
  have hin : a ∈ g.ledger.free k := hfree ▸ List.mem_cons_self
  obtain ⟨c, hc⟩ := h.ofFree hin
  have hset := h.settled k hk
  have hcount : (s.pools k.1).nrofFree k.2 ≠ 0 := by
    rw [hset.nrofFree, hfree, List.length_cons]
    omega
  have hhead : (s.pools k.1).freelist k.2 = .chunk a := by
    have hchain := hset.freelist
    rw [hfree] at hchain
    exact hchain.1
  have hwiped : Sound setup (s.store a { c with data := .zero }) g held P := by
    apply h.store a c _ hc
    · exact Or.inl rfl
    · intro k' b hrecord
      exact absurd hrecord (h.notRecord hin k' b)
    · intro k' b hrecord
      exact absurd hrecord (h.notRecord hin k' b)
  obtain ⟨s', htake, hsound⟩ := takeChunk_spec hwiped k hk a rest hfree
  refine ⟨s', ?_, hsound⟩
  have hbypass' : ¬ (s.pools k.1).bypasses := by
    rw [h.bypasses, hbypass]
    exact Bool.false_ne_true
  rw [mempoolGetChunk.eq_def, if_neg hbypass', if_neg hcount, hhead]
  change (s.modifyPuddle a (fun _ => .zero) >>= fun s => _) = _
  rw [State.modifyPuddle_ok _ hc]
  exact htake

end Take

section Return

/-- A chunk is returned to a pool that keeps it. -/
theorem mempoolReturnChunk_pool (h : Sound setup s g held P) (k : Key) (hk : P k)
    (hbypass : (setup k.1).bypasses = false) (a : Addr) (ha : held a = some k) :
    ∃ s', mempoolReturnChunk s k.1 k.2 a = .ok s' ∧
      Sound setup s' (g.give k a) (Function.update held a none) P ∧
      OnlyAt k s s' ∧ (∀ b, b ≠ a → s'.memory b = s.memory b) := by
  obtain ⟨hused, hrecord⟩ := (h.heldBy a k).mp ha
  obtain ⟨c, hc, hnull⟩ := h.ofUsed hused
  have hset := h.settled k hk
  let f : Pool → Pool := fun p => (p.setFreelist k.2 (.chunk a)).setNrofFree k.2 (p.nrofFree k.2+1)
  let s₁ := s.store a { c with next := (s.pools k.1).freelist k.2 }
  let s₂ := s₁.modifyPool k.1 f
  have hf : Agrees k.2 (s₁.pools k.1) (f (s₁.pools k.1)) :=
    (agrees_setFreelist _ _ _).trans (agrees_setNrofFree _ _ _)
  have hk' : ¬ (P k ∧ k ≠ k) := fun hand => hand.2 rfl
  have hgiven := (h.except k).give k hk' a ha
  have hin : a ∈ (g.give k a).ledger.free k := by
    rw [show (g.give k a).ledger.free k = a :: g.ledger.free k from Function.update_self _ _ _]
    exact List.mem_cons_self
  have h₂ : Sound setup s₂ (g.give k a) (Function.update held a none)
      fun k' => P k' ∧ k' ≠ k := by
    refine Sound.modifyPool ?_ k hk' f hf
    apply hgiven.store a c _ hc
    · exact Or.inr ⟨k, hin, hk'⟩
    · intro _ _ _
      rfl
    · intro _ _ _ _
      rfl
  have honly := onlyAt_modifyPool s₁ k f hf
  refine ⟨s₂, ?_, h₂.resettle ⟨?_, ?_, ?_, ?_⟩,
    ⟨honly.freelist, honly.nrofFree, honly.nrofAllocated, honly.puddlelist⟩, ?_⟩
  · unfold mempoolReturnChunk
    rw [State.load_ok hc]
    change (if c.next ≠ .null then _ else _) = _
    rw [if_neg (not_not_intro hnull), if_neg (by rw [h.bypasses, hbypass]; exact Bool.false_ne_true),
      State.setNext_ok _ hc]
    rfl
  · have hlist : (s₂.pools k.1).freelist k.2 = .chunk a := by
      change ((s₁.modifyPool k.1 f).pools k.1).freelist k.2 = _
      rw [State.modifyPool_self]
      exact Function.update_self _ _ _
    rw [hlist, show (g.give k a).ledger.free k = a :: g.ledger.free k from
      Function.update_self _ _ _]
    apply hset.freelist.push a (h.balanced.used_not_free hused k)
    · exact State.nextOf_eq (State.store_self _)
    · intro b hb
      exact State.nextOf_congr (State.store_other _ hb)
  · have hlist : (s₂.pools k.1).puddlelist k.2 = (s.pools k.1).puddlelist k.2 := by
      change ((s₁.modifyPool k.1 f).pools k.1).puddlelist k.2 = _
      rw [State.modifyPool_self]
      rfl
    rw [hlist]
    apply records_congr hset.puddlelist
    intro r b hmem
    apply State.store_other
    intro hra
    exact hrecord k b (hra ▸ hmem)
  · have hcount : (s₂.pools k.1).nrofFree k.2 = (s.pools k.1).nrofFree k.2+1 := by
      change ((s₁.modifyPool k.1 f).pools k.1).nrofFree k.2 = _
      rw [State.modifyPool_self]
      exact Function.update_self _ _ _
    rw [hcount, show (g.give k a).ledger.free k = a :: g.ledger.free k from
      Function.update_self _ _ _, hset.nrofFree, List.length_cons]
  · have hcount : (s₂.pools k.1).nrofAllocated k.2 = (s.pools k.1).nrofAllocated k.2 := by
      change ((s₁.modifyPool k.1 f).pools k.1).nrofAllocated k.2 = _
      rw [State.modifyPool_self]
      rfl
    rw [hcount]
    exact hset.nrofAllocated
  · intro b hb
    exact State.store_other _ hb

end Return

section Bypass

theorem size_bypass {k : Key} (hbypass : (setup k.1).bypasses) : size setup k = 1 := if_pos hbypass

/-- What a call leaves of the shape of the pools at a key. -/
structure Unchanged (g g' : Shape) (k : Key) : Prop where
  free : g'.ledger.free k = g.ledger.free k
  records : g'.records k = g.records k
  orphans : g'.orphans k = g.orphans k

/-- A chunk of a pool that is bypassed has a block for itself. -/
theorem mempoolGetChunk_bypass (h : Sound setup s g held P) (k : Key) (hk : P k)
    (hbypass : (setup k.1).bypasses) (b : ℕ) (blocks : List ℕ) (hfresh : Fresh s b) :
    ∃ s' g', mempoolGetChunk (b :: blocks) s k.1 k.2 = .ok ((b, 0), s') ∧
      Sound setup s' g' (Function.update held (b, 0) (some k)) P ∧
      (∀ k', k' ≠ k → Unchanged g g' k') := by
  have hsize := size_bypass hbypass
  have hset := h.settled k hk
  have hk' : ¬ (P k ∧ k ≠ k) := fun hand => hand.2 rfl
  let f : Pool → Pool := fun p => p.setNrofAllocated k.2 (p.nrofAllocated k.2+1)
  let s₁ := s.xcalloc b 1
  let s₂ := s₁.modifyPool k.1 f
  let s₃ := s₂.store (b, 0) { Chunk.zero with next := .null }
  have hnew : s₂.memory (b, 0) = some .zero := State.xcalloc_new rfl Nat.one_pos
  have h₁ := (h.except k).addBlock k hk' b hfresh
  rw [hsize] at h₁
  have hfree : (g.addBlock setup k b).ledger.free k = (b, 0) :: g.ledger.free k := by
    change (g.ledger.addBlock (size setup) k b).free k = _
    rw [Ledger.addBlock_free, hsize]
    rfl
  have h₃ : Sound setup s₃ (g.addBlock setup k b) held fun k' => P k' ∧ k' ≠ k := by
    apply (h₁.modifyPool k hk' f (agrees_setNrofAllocated _ _ _)).store (b, 0) .zero _ hnew
    · exact Or.inl rfl
    · intro _ _ _
      rfl
    · intro _ _ _ _
      rfl
  have hnull : ∀ c, s₃.memory (b, 0) = some c → c.next = .null := by
    intro c hc
    rw [State.store_self] at hc
    rw [← Option.some.inj hc]
  have h₄ := h₃.take k hk' (b, 0) (g.ledger.free k) hfree hnull
  let g' := (g.addBlock setup k b).take k (b, 0) (g.ledger.free k)
  have hold : ∀ a : Addr, a.1 ≠ b → s₃.memory a = s.memory a := by
    intro a hab
    have hne : a ≠ (b, 0) := fun heq => hab (congrArg Prod.fst heq)
    exact (State.store_other _ hne).trans (State.xcalloc_old hab)
  have hpool : s₃.pools k.1 = f (s.pools k.1) := State.modifyPool_self (s := s₁) k.1 f
  have hfree' : g'.ledger.free k = g.ledger.free k := Function.update_self _ _ _
  refine ⟨s₃, g', ?_, h₄.resettle ⟨?_, ?_, ?_, ?_⟩, ?_⟩
  · rw [mempoolGetChunk.eq_def, if_pos (by rw [h.bypasses, hbypass])]
    change (s₂.setNext (b, 0) .null >>= fun s => _) = _
    rw [State.setNext_ok .null hnew]
    rfl
  · rw [hpool, hfree']
    apply hset.freelist.congr
    intro a ha
    exact State.nextOf_congr (hold a (h.notFresh hfresh (Or.inl ha)))
  · rw [hpool]
    apply records_congr hset.puddlelist
    intro r b' hmem
    exact hold r (h.notFresh hfresh (Or.inr (h.record k r b' hmem)))
  · rw [hpool, hfree']
    exact hset.nrofFree
  · have hblocks : g'.ledger.blocks k = b :: g.ledger.blocks k := Function.update_self _ _ _
    rw [hpool, hblocks, List.length_cons, Nat.succ_mul, ← hset.nrofAllocated, hsize]
    exact Function.update_self _ _ _
  · intro k' hne
    refine ⟨?_, rfl, Function.update_of_ne hne _ _⟩
    exact (Function.update_of_ne hne _ _).trans (Function.update_of_ne hne _ _)

theorem mempoolReturnChunk_bypass (h : Sound setup s g held P) (k : Key) (hk : P k)
    (hbypass : (setup k.1).bypasses) (a : Addr) (ha : held a = some k) :
    ∃ s' g', mempoolReturnChunk s k.1 k.2 a = .ok s' ∧
      Sound setup s' g' (Function.update held a none) P ∧
      (∀ k', k' ≠ k → Unchanged g g' k') := by
  obtain ⟨hused, hrecord⟩ := (h.heldBy a k).mp ha
  obtain ⟨c, hc, hnull⟩ := h.ofUsed hused
  have hsize := size_bypass hbypass
  have hset := h.settled k hk
  have hk' : ¬ (P k ∧ k ≠ k) := fun hand => hand.2 rfl
  obtain ⟨hblock, hindex⟩ := h.balanced.of_used hused
  rw [hsize] at hindex
  have haddr : a = (a.1, 0) := Prod.ext rfl (Nat.lt_one_iff.mp hindex)
  have horphans := h.blocks k
  rw [h.bypassed k hbypass, List.map_nil, List.append_nil] at horphans
  have hmem : a.1 ∈ g.orphans k := horphans.mem_iff.mpr hblock
  have hunused : ∀ i, (g.give k a).ledger.used (a.1, i) = none := by
    intro i
    by_cases hi : (a.1, i) = a
    · rw [hi]
      exact Function.update_self _ _ _
    rw [show (g.give k a).ledger.used (a.1, i) = g.ledger.used (a.1, i) from
      Function.update_of_ne hi _ _]
    cases hother : g.ledger.used (a.1, i) with
    | none => rfl
    | some k₂ =>
      obtain ⟨hblock₂, hindex₂⟩ := h.balanced.of_used hother
      rw [h.balanced.apart k₂ k a.1 hblock₂ hblock, hsize] at hindex₂
      have hzero : i = 0 := Nat.lt_one_iff.mp hindex₂
      exact absurd (hzero ▸ haddr.symm) hi
  have hapart : ∀ b ∈ g.ledger.free k, b.1 ≠ a.1 := by
    intro b hb hba
    have hindexB := (h.balanced.of_free hb).2
    rw [hsize] at hindexB
    have hsame : b = a := by
      rw [haddr]
      exact Prod.ext hba (Nat.lt_one_iff.mp hindexB)
    exact h.balanced.used_not_free hused k (hsame ▸ hb)
  have h₁ := (h.except k).give k hk' a ha
  have h₂ := h₁.discard k hk' a.1 ((g.orphans k).erase a.1) (List.perm_cons_erase hmem) hunused
  let f : Pool → Pool := fun p => p.setNrofAllocated k.2 (p.nrofAllocated k.2-1)
  have h₃ := h₂.modifyPool k hk' f (agrees_setNrofAllocated _ _ _)
  let g' := (g.give k a).discard k a.1 ((g.orphans k).erase a.1)
  let s₃ := (s.freed a.1).modifyPool k.1 f
  have hpool : s₃.pools k.1 = f (s.pools k.1) := State.modifyPool_self (s := s.freed a.1) k.1 f
  have hfree : g'.ledger.free k = g.ledger.free k := by
    change ((g.ledger.give k a).discard k a.1).free k = _
    rw [Ledger.discard_free, show (g.ledger.give k a).free k = a :: g.ledger.free k from
      Function.update_self _ _ _, List.filter_cons_of_neg (by simp)]
    apply List.filter_eq_self.mpr
    intro b hb
    exact decide_eq_true (hapart b hb)
  refine ⟨s₃, g', ?_, h₃.resettle ⟨?_, ?_, ?_, ?_⟩, ?_⟩
  · unfold mempoolReturnChunk
    rw [State.load_ok hc]
    change (if c.next ≠ .null then _ else _) = _
    rw [if_neg (not_not_intro hnull), if_pos (by rw [h.bypasses, hbypass])]
    rw [haddr] at hc ⊢
    rw [State.free_ok hc]
    rfl
  · rw [hpool, hfree]
    apply hset.freelist.congr
    intro b hb
    exact State.nextOf_congr (State.freed_other (hapart b hb))
  · have hnil : g'.records k = [] := h.bypassed k hbypass
    have hchain := hset.puddlelist
    rw [h.bypassed k hbypass] at hchain
    rw [hpool, hnil]
    exact hchain
  · rw [hpool, hfree]
    exact hset.nrofFree
  · have hblocks : g'.ledger.blocks k = (g.ledger.blocks k).erase a.1 := Ledger.discard_blocks k a.1
    rw [hpool, hblocks, List.length_erase_of_mem hblock, hsize, Nat.mul_one]
    have hcount := hset.nrofAllocated
    rw [hsize, Nat.mul_one] at hcount
    rw [← hcount]
    exact Function.update_self _ _ _
  · intro k' hne
    refine ⟨?_, rfl, Function.update_of_ne hne _ _⟩
    exact (Ledger.discard_free_other a.1 hne).trans (Function.update_of_ne hne _ _)

end Bypass

end LibAtrinik.Mempool

import LibAtrinik.MempoolExpand

namespace LibAtrinik.Mempool

open IntrusiveList BlockLedger

variable {setup : ℕ → Pool} {s : State} {g : Shape} {held : Addr → Option Key} {P : Key → Prop}
  {k : Key}

/-- The free chunks among some of a block. -/
def freeIn (free : List Addr) (b j n : ℕ) : List Addr :=
  ((List.range' j n).map (Prod.mk b)).filter fun a => a ∈ free

/-- The list of a puddle holds these chunks. -/
structure Listed (s : State) (p : Puddle) (l : List Addr) : Prop where
  chain : Seg Pointer.chunk s.nextOf p.firstFree l .null
  last : ∀ a, l.getLast? = some a → p.lastFree = .chunk a

/-- The record of a puddle is written while its key is not settled. -/
theorem Sound.storeRecord (h : Sound setup s g held P) (hk : ¬ P k) {r : Addr} {b : ℕ}
    (hr : (r, b) ∈ g.records k) {c : Chunk} (hc : s.memory r = some c) (data : Puddle)
    (hdata : data.firstChunk = c.data.firstChunk) :
    Sound setup (s.store r { c with data := data }) g held P := by
  apply h.store r c _ hc
  · exact Or.inl rfl
  · intro _ _ _
    exact hdata
  · intro k' b' hmem hk'
    exact absurd (h.apart k' k r b' b hmem hr ▸ hk') hk

/-- A free chunk is linked while its key is not settled. -/
theorem Sound.storeFree (h : Sound setup s g held P) (hk : ¬ P k) {a : Addr}
    (ha : a ∈ g.ledger.free k) {c : Chunk} (hc : s.memory a = some c) (next : Pointer) :
    Sound setup (s.store a { c with next := next }) g held P := by
  apply h.store a c _ hc
  · exact Or.inr ⟨k, ha, hk⟩
  · intro _ _ _
    rfl
  · intro _ _ _ _
    rfl

/-- A free chunk becomes the first one of the list of its puddle. -/
theorem linkFree_spec (h : Sound setup s g held P) (hk : ¬ P k) (r : Addr) (b : ℕ)
    (hr : (r, b) ∈ g.records k) (a : Addr) (ha : a ∈ g.ledger.free k) (c : Chunk)
    (hc : s.memory r = some c) :
    ∃ s' c', linkFree r a s = .ok s' ∧ Sound setup s' g held P ∧ s'.pools = s.pools ∧
      s'.memory r = some c' ∧ c'.data.firstChunk = c.data.firstChunk ∧
      c'.data.next = c.data.next ∧ c'.data.nrofFree = c.data.nrofFree+1 ∧
      c'.data.firstFree = .chunk a ∧
      c'.data.lastFree = (if c.data.nrofFree = 0 then .chunk a else c.data.lastFree) ∧
      s'.nextOf a = some (if c.data.nrofFree = 0 then .null else c.data.firstFree) ∧
      (∀ x, x ≠ r → x ≠ a → s'.memory x = s.memory x) := by
  have hra : r ≠ a := fun hra => h.balanced.used_not_free (h.record k r b hr) k (hra ▸ ha)
  obtain ⟨ca, hca⟩ := h.ofFree ha
  by_cases hzero : c.data.nrofFree = 0
  · let d₁ : Puddle := { c.data with firstFree := .chunk a, lastFree := .chunk a }
    let d₂ : Puddle := { d₁ with nrofFree := d₁.nrofFree+1 }
    let s₁ := s.store r { c with data := d₁ }
    let s₂ := s₁.store a { ca with next := .null }
    let s₃ := s₂.store r { c with data := d₂ }
    have hca₁ : s₁.memory a = some ca := (State.store_other _ hra.symm).trans hca
    have hc₂ : s₂.memory r = some { c with data := d₁ } :=
      (State.store_other _ hra).trans (State.store_self _)
    have h₁ := h.storeRecord hk hr hc d₁ rfl
    have h₂ : Sound setup s₂ g held P := h₁.storeFree hk ha hca₁ .null
    have h₃ : Sound setup s₃ g held P := h₂.storeRecord hk hr hc₂ d₂ rfl
    have hlink : s₃.memory a = some { ca with next := .null } :=
      (State.store_other _ hra.symm).trans (State.store_self _)
    refine ⟨s₃, { c with data := d₂ }, ?_, h₃, rfl, State.store_self _, rfl, rfl, rfl, rfl, ?_, ?_, ?_⟩
    · unfold linkFree
      rw [State.load_ok hc]
      change (if c.data.nrofFree = 0 then _ else _ : Except Fault State) = _
      rw [if_pos hzero, State.modifyPuddle_ok _ hc]
      change (s₁.setNext a .null >>= fun s => _) = _
      rw [State.setNext_ok _ hca₁]
      change s₂.modifyPuddle r (fun p => { p with nrofFree := p.nrofFree+1 }) = _
      rw [State.modifyPuddle_ok _ hc₂]
    · rw [if_pos hzero]
    · rw [if_pos hzero, State.nextOf_eq hlink]
    · intro x hxr hxa
      exact (State.store_other _ hxr).trans
        ((State.store_other _ hxa).trans (State.store_other _ hxr))
  · let d₁ : Puddle := { c.data with firstFree := .chunk a }
    let d₂ : Puddle := { d₁ with nrofFree := d₁.nrofFree+1 }
    let s₁ := s.store a { ca with next := c.data.firstFree }
    let s₂ := s₁.store r { c with data := d₁ }
    let s₃ := s₂.store r { c with data := d₂ }
    have hc₁ : s₁.memory r = some c := (State.store_other _ hra).trans hc
    have hc₂ : s₂.memory r = some { c with data := d₁ } := State.store_self _
    have h₁ := h.storeFree hk ha hca c.data.firstFree
    have h₂ : Sound setup s₂ g held P := h₁.storeRecord hk hr hc₁ d₁ rfl
    have h₃ : Sound setup s₃ g held P := h₂.storeRecord hk hr hc₂ d₂ rfl
    have hlink : s₃.memory a = some { ca with next := c.data.firstFree } :=
      (State.store_other _ hra.symm).trans
        ((State.store_other _ hra.symm).trans (State.store_self _))
    refine ⟨s₃, { c with data := d₂ }, ?_, h₃, rfl, State.store_self _, rfl, rfl, rfl, rfl, ?_, ?_, ?_⟩
    · unfold linkFree
      rw [State.load_ok hc]
      change (if c.data.nrofFree = 0 then _ else _ : Except Fault State) = _
      rw [if_neg hzero, State.setNext_ok _ hca]
      change (s₁.modifyPuddle r _ >>= fun s => _) = _
      rw [State.modifyPuddle_ok _ hc₁]
      change s₂.modifyPuddle r (fun p => { p with nrofFree := p.nrofFree+1 }) = _
      rw [State.modifyPuddle_ok _ hc₂]
    · rw [if_neg hzero]
    · rw [if_neg hzero, State.nextOf_eq hlink]
    · intro x hxr hxa
      exact (State.store_other _ hxr).trans
        ((State.store_other _ hxr).trans (State.store_other _ hxa))

/-- The counter of a puddle that has not wrapped. -/
theorem ofNat_eq_zero {n : ℕ} (hn : n < 2^32) : UInt32.ofNat n = 0 ↔ n = 0 := by
  constructor
  · intro h
    have hnat := congrArg UInt32.toNat h
    rw [UInt32.toNat_ofNat_of_lt' hn] at hnat
    exact hnat
  · intro h
    rw [h]
    rfl

theorem freeIn_cons {free : List Addr} {b j : ℕ} (n : ℕ) (h : (b, j) ∈ free) :
    freeIn free b j (n+1) = (b, j) :: freeIn free b (j+1) n := by
  unfold freeIn
  rw [List.range'_succ, List.map_cons, List.filter_cons, if_pos (decide_eq_true h)]

theorem freeIn_skip {free : List Addr} {b j : ℕ} (n : ℕ) (h : (b, j) ∉ free) :
    freeIn free b j (n+1) = freeIn free b (j+1) n := by
  unfold freeIn
  rw [List.range'_succ, List.map_cons, List.filter_cons, if_neg fun hin => h (of_decide_eq_true hin)]

/-- The links of a used chunk are as they were, as it has none. -/
theorem Sound.nextOf_same {s' : State} (h : Sound setup s g held P) (h' : Sound setup s' g held P)
    {r a : Addr} {key : Key} (hused : g.ledger.used r = some key)
    (hsame : ∀ x, x ≠ r → x ≠ a → s'.memory x = s.memory x) (x : Addr) (hx : x ≠ a) :
    s'.nextOf x = s.nextOf x := by
  by_cases hxr : x = r
  · obtain ⟨c, hc, hnull⟩ := h.ofUsed hused
    obtain ⟨c', hc', hnull'⟩ := h'.ofUsed hused
    rw [hxr, State.nextOf_eq hc, State.nextOf_eq hc', hnull, hnull']
  · exact State.nextOf_congr (hsame x hxr hx)

/-- A chunk is put in front of the list of a puddle, whose counter tells whether it is empty. -/
theorem Listed.push {s' : State} {p p' : Puddle} {found : List Addr} {a : Addr}
    (h : Listed s p found) (hzero : p.nrofFree = 0 ↔ found = []) (hnotin : a ∉ found)
    (hhead : p'.firstFree = .chunk a)
    (hlast : p'.lastFree = if p.nrofFree = 0 then .chunk a else p.lastFree)
    (hto : s'.nextOf a = some (if p.nrofFree = 0 then .null else p.firstFree))
    (hsame : ∀ x, x ≠ a → s'.nextOf x = s.nextOf x) : Listed s' p' (a :: found) := by
  by_cases hempty : found = []
  · rw [if_pos (hzero.mpr hempty)] at hlast hto
    have hchain := h.chain
    rw [hempty, seg_nil] at hchain
    refine ⟨?_, ?_⟩
    · rw [hhead]
      apply h.chain.push a hnotin ?_ hsame
      rw [hto, hchain]
    · intro x hget
      rw [hempty] at hget
      rw [hlast]
      exact congrArg Pointer.chunk (Option.some.inj hget)
  · rw [if_neg (mt hzero.mp hempty)] at hlast hto
    refine ⟨?_, ?_⟩
    · rw [hhead]
      exact h.chain.push a hnotin hto hsame
    · intro x hget
      rw [hlast]
      apply h.last x
      rw [← hget, List.getLast?_cons_of_ne_nil hempty]

/-- The chunks of a puddle are counted. A chunk is free when it has a link. -/
theorem countFree_spec (hk : ¬ P k) (r : Addr) (b : ℕ) (hr : (r, b) ∈ g.records k) (n j : ℕ)
    (found : List Addr) (h : Sound setup s g held P) (c : Chunk) (hc : s.memory r = some c)
    (hcount : c.data.nrofFree = UInt32.ofNat found.length)
    (hlisted : found.length+(freeIn (g.ledger.free k) b j n).length < 2^32 →
      Listed s c.data found)
    (hfound : ∀ a ∈ found, a.2 < j)
    (hchunks : ∀ i, j ≤ i → i < j+n → ∃ ci, s.memory (b, i) = some ci ∧
      (ci.next = .null ↔ (b, i) ∉ g.ledger.free k)) :
    ∃ s' c', countFree r (.chunk (b, 0)) n j s = .ok s' ∧ Sound setup s' g held P ∧
      s'.pools = s.pools ∧ s'.memory r = some c' ∧ c'.data.firstChunk = c.data.firstChunk ∧
      c'.data.next = c.data.next ∧
      c'.data.nrofFree =
        UInt32.ofNat (found.length+(freeIn (g.ledger.free k) b j n).length) ∧
      (found.length+(freeIn (g.ledger.free k) b j n).length < 2^32 →
        Listed s' c'.data ((freeIn (g.ledger.free k) b j n).reverse ++ found)) ∧
      (∀ x : Addr, x ≠ r → x.1 ≠ b ∨ x ∉ g.ledger.free k → s'.memory x = s.memory x) := by
  have hused := h.record k r b hr
  -- `found` holds the free chunks before the position `j`, the last one first
  induction n generalizing j s found c with
  | zero => exact ⟨s, c, rfl, h, rfl, hc, rfl, rfl, hcount, hlisted, fun _ _ _ => rfl⟩
  | succ n ih =>
    obtain ⟨ca, hca, hstatus⟩ := hchunks j (Nat.le_refl j) (by omega)
    have hload : countFree r (.chunk (b, 0)) (n+1) j s =
        if ca.next ≠ .null then linkFree r (b, j) s >>= fun s =>
          countFree r (.chunk (b, 0)) n (j+1) s
        else countFree r (.chunk (b, 0)) n (j+1) s := by
      change (s.load (b, 0+j) >>= fun c => _) = _
      rw [Nat.zero_add, State.load_ok hca]
      rfl
    by_cases ha : (b, j) ∈ g.ledger.free k
    · have hnext : ca.next ≠ .null := fun hnull => hstatus.mp hnull ha
      obtain ⟨s₁, c₁, hlink, h₁, hpools₁, hc₁, hfirst₁, hnext₁, hcount₁, hhead₁, hlast₁, hto₁, hsame₁⟩ :=
        linkFree_spec h hk r b hr (b, j) ha c hc
      have hfree := freeIn_cons n ha
      have hsum : found.length+(freeIn (g.ledger.free k) b j (n+1)).length =
          ((b, j) :: found).length+(freeIn (g.ledger.free k) b (j+1) n).length := by
        rw [hfree, List.length_cons, List.length_cons]
        omega
      have hnotin : (b, j) ∉ found := fun hin => Nat.lt_irrefl j (hfound _ hin)
      obtain ⟨s', c', hrun, hsound, hpools, hc', hfirst, hnext', hcount', hlisted', hsame⟩ :=
        ih (j+1) ((b, j) :: found) h₁ c₁ hc₁ (by
          rw [hcount₁, hcount, List.length_cons, UInt32.ofNat_add]
          rfl) (by
          rw [← hsum]
          intro hlt
          -- the counter has not wrapped around, so that it tells whether the list is empty
          have hzero : c.data.nrofFree = 0 ↔ found = [] := by
            rw [hcount, ofNat_eq_zero (by omega), List.length_eq_zero_iff]
          exact (hlisted hlt).push hzero hnotin hhead₁ hlast₁ hto₁
            (h.nextOf_same h₁ hused hsame₁)) (by
          intro a hin
          rcases List.mem_cons.mp hin with heq | hold
          · rw [heq]
            exact Nat.lt_succ_self j
          · exact Nat.lt_succ_of_lt (hfound a hold)) (by
          intro i hij hi
          obtain ⟨ci, hci, hstatus'⟩ := hchunks i (by omega) (by omega)
          by_cases hir : (b, i) = r
          · obtain ⟨cr₁, hcr₁, hnull₁⟩ := h₁.ofUsed hused
            rw [hir]
            exact ⟨cr₁, hcr₁, fun _ => h.balanced.used_not_free hused k, fun _ => hnull₁⟩
          · refine ⟨ci, ?_, hstatus'⟩
            rw [hsame₁ (b, i) hir, hci]
            intro heq
            have hij' : i = j := (Prod.mk.inj heq).2
            omega)
      refine ⟨s', c', ?_, hsound, hpools.trans hpools₁, hc', hfirst.trans hfirst₁,
        hnext'.trans hnext₁, ?_, ?_, ?_⟩
      · rw [hload, if_pos hnext, hlink]
        exact hrun
      · rw [hsum]
        exact hcount'
      · rw [hsum, hfree, List.reverse_cons, List.append_assoc]
        exact hlisted'
      · intro x hxr hx
        rw [hsame x hxr hx, hsame₁ x hxr]
        intro heq
        rw [heq] at hx
        exact hx.elim (fun hne => hne rfl) fun hnot => hnot ha
    · rw [freeIn_skip n ha] at hlisted ⊢
      rw [hload, if_neg (not_not_intro (hstatus.mpr ha))]
      exact ih (j+1) found h c hc hcount hlisted
        (fun a hin => Nat.lt_succ_of_lt (hfound a hin))
        (fun i hij hi => hchunks i (by omega) (by omega))

end LibAtrinik.Mempool

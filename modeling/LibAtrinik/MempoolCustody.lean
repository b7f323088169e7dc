import LibAtrinik.MempoolInvariant

namespace LibAtrinik.Mempool

open IntrusiveList BlockLedger

variable {setup : ℕ → Pool} {s : State} {g : Shape} {held : Addr → Option Key} {P : Key → Prop}

section Chunks

/-- A free chunk comes into the hands of a user. -/
def Shape.take (g : Shape) (k : Key) (a : Addr) (rest : List Addr) : Shape :=
  { g with ledger := g.ledger.take k a rest }

/-- A chunk is free again. -/
def Shape.give (g : Shape) (k : Key) (a : Addr) : Shape := { g with ledger := g.ledger.give k a }

/-- The free chunks are in another order. -/
def Shape.setFree (g : Shape) (k : Key) (free : List Addr) : Shape :=
  { g with ledger := g.ledger.setFree k free }

theorem Sound.take (h : Sound setup s g held P) (k : Key) (hk : ¬ P k) (a : Addr) (rest : List Addr)
    (hfree : g.ledger.free k = a :: rest) (hnull : ∀ c, s.memory a = some c → c.next = .null) :
    Sound setup s (g.take k a rest) (Function.update held a (some k)) P := by
  have ha : a ∈ g.ledger.free k := hfree ▸ List.mem_cons_self
  have hused : (g.take k a rest).ledger.used a = some k := Function.update_self _ _ _
  have hother : ∀ b, b ≠ a → (g.take k a rest).ledger.used b = g.ledger.used b :=
    fun b hb => Function.update_of_ne hb _ _
  exact {
    deiniting := h.deiniting
    expandSize := h.expandSize
    flags := h.flags
    balanced := h.balanced.take k a rest hfree
    domain := h.domain
    inUse := by
      intro b k' c hb hc
      by_cases hba : b = a
      · exact hnull c (hba ▸ hc)
      · rw [hother b hba] at hb
        exact h.inUse b k' c hb hc
    firstChunk := h.firstChunk
    record := by
      intro k' r b hrecord
      have hra : r ≠ a := fun hra => h.notRecord ha k' b (hra ▸ hrecord)
      rw [hother r hra]
      exact h.record k' r b hrecord
    apart := h.apart
    nodup := h.nodup
    blocks := h.blocks
    bypassed := h.bypassed
    own := h.own
    heldBy := by
      intro b k'
      by_cases hba : b = a
      · rw [hba, hused, Function.update_self]
        constructor
        · intro hk'
          exact ⟨hk', h.notRecord ha⟩
        · exact And.left
      · rw [hother b hba, Function.update_of_ne hba]
        exact h.heldBy b k'
    settled := by
      intro k' hk'
      have hne : k' ≠ k := fun hne => hk (hne ▸ hk')
      exact (h.settled k' hk').congr rfl (fun _ _ => rfl) (fun _ _ _ => rfl)
        (Function.update_of_ne hne _ _) rfl rfl }

theorem Sound.give (h : Sound setup s g held P) (k : Key) (hk : ¬ P k) (a : Addr)
    (ha : held a = some k) :
    Sound setup s (g.give k a) (Function.update held a none) P := by
  obtain ⟨hused, hrecord⟩ := (h.heldBy a k).mp ha
  have hnone : (g.give k a).ledger.used a = none := Function.update_self _ _ _
  have hother : ∀ b, b ≠ a → (g.give k a).ledger.used b = g.ledger.used b :=
    fun b hb => Function.update_of_ne hb _ _
  exact {
    deiniting := h.deiniting
    expandSize := h.expandSize
    flags := h.flags
    balanced := h.balanced.give k a hused
    domain := h.domain
    inUse := by
      intro b k' c hb hc
      by_cases hba : b = a
      · rw [hba, hnone] at hb
        cases hb
      · rw [hother b hba] at hb
        exact h.inUse b k' c hb hc
    firstChunk := h.firstChunk
    record := by
      intro k' r b hr
      have hra : r ≠ a := fun hra => hrecord k' b (hra ▸ hr)
      rw [hother r hra]
      exact h.record k' r b hr
    apart := h.apart
    nodup := h.nodup
    blocks := h.blocks
    bypassed := h.bypassed
    own := h.own
    heldBy := by
      intro b k'
      by_cases hba : b = a
      · rw [hba, hnone, Function.update_self]
        constructor
        · intro hk'
          cases hk'
        · intro hk'
          cases hk'.1
      · rw [hother b hba, Function.update_of_ne hba]
        exact h.heldBy b k'
    settled := by
      intro k' hk'
      have hne : k' ≠ k := fun hne => hk (hne ▸ hk')
      exact (h.settled k' hk').congr rfl (fun _ _ => rfl) (fun _ _ _ => rfl)
        (Function.update_of_ne hne _ _) rfl rfl }

theorem Sound.reorder (h : Sound setup s g held P) (k : Key) (hk : ¬ P k) (free : List Addr)
    (hperm : free.Perm (g.ledger.free k)) : Sound setup s (g.setFree k free) held P :=
  { h with
    balanced := h.balanced.reorder k free hperm
    settled := by
      intro k' hk'
      have hne : k' ≠ k := fun hne => hk (hne ▸ hk')
      exact (h.settled k' hk').congr rfl (fun _ _ => rfl) (fun _ _ _ => rfl)
        (Function.update_of_ne hne _ _) rfl rfl }

end Chunks

section Records

/-- A chunk becomes the record of the puddle in an orphaned block. -/
def Shape.attach (g : Shape) (k : Key) (r : Addr) (b : ℕ) (orphans : List ℕ) : Shape :=
  { g with
    records := Function.update g.records k ((r, b) :: g.records k)
    orphans := Function.update g.orphans k orphans }

/-- The record of a block is given up. -/
def Shape.detach (g : Shape) (k : Key) (b : ℕ) (records : List (Addr × ℕ)) : Shape :=
  { g with
    records := Function.update g.records k records
    orphans := Function.update g.orphans k (b :: g.orphans k) }

theorem Sound.attach (h : Sound setup s g held P) (k : Key) (hk : ¬ P k) (r : Addr) (b : ℕ)
    (orphans : List ℕ) (horphans : g.orphans k = b :: orphans) (hr : held r = some puddleKey)
    (hbypass : (setup k.1).bypasses = false) (hown : k = puddleKey → b = r.1)
    (hfirst : ∃ c, s.memory r = some c ∧ c.data.firstChunk = .chunk (b, 0)) :
    Sound setup s (g.attach k r b orphans) (Function.update held r none) P := by
  obtain ⟨hused, hrecord⟩ := (h.heldBy r puddleKey).mp hr
  have hself : (g.attach k r b orphans).records k = (r, b) :: g.records k := Function.update_self _ _ _
  have hother : ∀ k', k' ≠ k → (g.attach k r b orphans).records k' = g.records k' :=
    fun k' hk' => Function.update_of_ne hk' _ _
  -- each record is the new one or an old one, and the fields only differ in the new one
  have hcases : ∀ k' r' b', (r', b') ∈ (g.attach k r b orphans).records k' ↔
      (k' = k ∧ r' = r ∧ b' = b) ∨ (r', b') ∈ g.records k' := by
    intro k' r' b'
    by_cases hk' : k' = k
    · rw [hk', hself, List.mem_cons, Prod.mk.injEq]
      simp only [true_and]
    · rw [hother k' hk']
      simp only [hk', false_and, false_or]
  exact {
    deiniting := h.deiniting
    expandSize := h.expandSize
    flags := h.flags
    balanced := h.balanced
    domain := h.domain
    inUse := h.inUse
    firstChunk := by
      intro k' r' b' hmem
      rcases (hcases k' r' b').mp hmem with ⟨_, hr', hb'⟩ | hold
      · rw [hr', hb']
        exact hfirst
      · exact h.firstChunk k' r' b' hold
    record := by
      intro k' r' b' hmem
      rcases (hcases k' r' b').mp hmem with ⟨_, hr', _⟩ | hold
      · rw [hr']
        exact hused
      · exact h.record k' r' b' hold
    apart := by
      intro k₁ k₂ r' b₁ b₂ h₁ h₂
      rcases (hcases k₁ r' b₁).mp h₁ with ⟨hk₁, hr₁, _⟩ | hold₁
      · rcases (hcases k₂ r' b₂).mp h₂ with ⟨hk₂, _, _⟩ | hold₂
        · rw [hk₁, hk₂]
        · exact absurd (hr₁ ▸ hold₂) (hrecord k₂ b₂)
      · rcases (hcases k₂ r' b₂).mp h₂ with ⟨_, hr₂, _⟩ | hold₂
        · exact absurd (hr₂ ▸ hold₁) (hrecord k₁ b₁)
        · exact h.apart k₁ k₂ r' b₁ b₂ hold₁ hold₂
    nodup := by
      intro k'
      by_cases hk' : k' = k
      · rw [hk', hself, List.map_cons, List.nodup_cons]
        refine ⟨?_, h.nodup k⟩
        intro hmem
        obtain ⟨record, hmem, heq⟩ := List.mem_map.mp hmem
        have heq : record.1 = r := heq
        exact hrecord k record.2 (heq ▸ hmem)
      · rw [hother k' hk']
        exact h.nodup k'
    blocks := by
      intro k'
      by_cases hk' : k' = k
      · rw [hk', hself, show (g.attach k r b orphans).orphans k = orphans from
          Function.update_self _ _ _]
        have hblocks := h.blocks k
        rw [horphans] at hblocks
        exact List.perm_middle.trans hblocks
      · rw [hother k' hk', show (g.attach k r b orphans).orphans k' = g.orphans k' from
          Function.update_of_ne hk' _ _]
        exact h.blocks k'
    bypassed := by
      intro k' hk'
      by_cases hkk : k' = k
      · rw [hkk, hbypass] at hk'
        cases hk'
      · rw [hother k' hkk]
        exact h.bypassed k' hk'
    own := by
      intro r' b' hmem
      rcases (hcases puddleKey r' b').mp hmem with ⟨hk', hr', hb'⟩ | hold
      · rw [hr', hb']
        exact hown hk'.symm
      · exact h.own r' b' hold
    heldBy := by
      intro a k'
      by_cases har : a = r
      · rw [har, Function.update_self]
        constructor
        · intro hk'
          cases hk'
        · intro hk'
          exact absurd ((hcases k r b).mpr (Or.inl ⟨rfl, rfl, rfl⟩)) (hk'.2 k b)
      · rw [Function.update_of_ne har, h.heldBy a k']
        constructor
        · intro hold
          refine ⟨hold.1, fun k₂ b₂ hmem => ?_⟩
          rcases (hcases k₂ a b₂).mp hmem with ⟨_, har', _⟩ | hmem
          · exact har har'
          · exact hold.2 k₂ b₂ hmem
        · intro hnew
          exact ⟨hnew.1, fun k₂ b₂ hmem => hnew.2 k₂ b₂ ((hcases k₂ a b₂).mpr (Or.inr hmem))⟩
    settled := by
      intro k' hk'
      have hne : k' ≠ k := fun hne => hk (hne ▸ hk')
      exact (h.settled k' hk').congr rfl (fun _ _ => rfl) (fun _ _ _ => rfl) rfl rfl
        (hother k' hne) }

theorem Sound.detach (h : Sound setup s g held P) (k : Key) (hk : ¬ P k) (r : Addr) (b : ℕ)
    (records : List (Addr × ℕ)) (hrecords : (g.records k).Perm ((r, b) :: records)) :
    Sound setup s (g.detach k b records) (Function.update held r (some puddleKey)) P := by
  have hself : (g.detach k b records).records k = records := Function.update_self _ _ _
  have hother : ∀ k', k' ≠ k → (g.detach k b records).records k' = g.records k' :=
    fun k' hk' => Function.update_of_ne hk' _ _
  have hin : (r, b) ∈ g.records k := hrecords.mem_iff.mpr List.mem_cons_self
  have hnodup := (hrecords.map Prod.fst).nodup_iff.mp (h.nodup k)
  rw [List.map_cons, List.nodup_cons] at hnodup
  have hback : ∀ k' r' b', (r', b') ∈ (g.detach k b records).records k' ↔
      (r', b') ∈ g.records k' ∧ r' ≠ r := by
    intro k' r' b'
    by_cases hk' : k' = k
    · rw [hk', hself, hrecords.mem_iff, List.mem_cons]
      constructor
      · intro hmem
        refine ⟨Or.inr hmem, fun hr' => hnodup.1 ?_⟩
        exact List.mem_map.mpr ⟨(r', b'), hmem, hr'⟩
      · intro hmem
        exact hmem.1.resolve_left fun heq => hmem.2 (Prod.mk.inj heq).1
    · rw [hother k' hk']
      constructor
      · intro hmem
        refine ⟨hmem, fun hr' => hk' ?_⟩
        exact h.apart k' k r b' b (hr' ▸ hmem) hin
      · exact And.left
  exact {
    deiniting := h.deiniting
    expandSize := h.expandSize
    flags := h.flags
    balanced := h.balanced
    domain := h.domain
    inUse := h.inUse
    firstChunk := fun k' r' b' hmem => h.firstChunk k' r' b' ((hback k' r' b').mp hmem).1
    record := fun k' r' b' hmem => h.record k' r' b' ((hback k' r' b').mp hmem).1
    apart := fun k₁ k₂ r' b₁ b₂ h₁ h₂ => h.apart k₁ k₂ r' b₁ b₂ ((hback k₁ r' b₁).mp h₁).1
      ((hback k₂ r' b₂).mp h₂).1
    nodup := by
      intro k'
      by_cases hk' : k' = k
      · rw [hk', hself]
        exact hnodup.2
      · rw [hother k' hk']
        exact h.nodup k'
    blocks := by
      intro k'
      by_cases hk' : k' = k
      · rw [hk', hself, show (g.detach k b records).orphans k = b :: g.orphans k from
          Function.update_self _ _ _]
        have hmoved := ((hrecords.map Prod.snd).append_left (g.orphans k)).symm
        rw [List.map_cons] at hmoved
        exact (List.perm_middle.symm.trans hmoved).trans (h.blocks k)
      · rw [hother k' hk', show (g.detach k b records).orphans k' = g.orphans k' from
          Function.update_of_ne hk' _ _]
        exact h.blocks k'
    bypassed := by
      intro k' hk'
      have hnil := h.bypassed k' hk'
      by_cases hkk : k' = k
      · rw [hkk] at hnil
        rw [hnil] at hin
        cases hin
      · rw [hother k' hkk]
        exact hnil
    own := fun r' b' hmem => h.own r' b' ((hback puddleKey r' b').mp hmem).1
    heldBy := by
      intro a k'
      by_cases har : a = r
      · have hused : (g.detach k b records).ledger.used r = some puddleKey := h.record k r b hin
        rw [har, Function.update_self, hused]
        constructor
        · intro hk'
          exact ⟨hk', fun k₂ b₂ hmem => ((hback k₂ r b₂).mp hmem).2 rfl⟩
        · exact And.left
      · rw [Function.update_of_ne har, h.heldBy a k']
        constructor
        · intro hold
          exact ⟨hold.1, fun k₂ b₂ hmem => hold.2 k₂ b₂ ((hback k₂ a b₂).mp hmem).1⟩
        · intro hnew
          exact ⟨hnew.1, fun k₂ b₂ hmem => hnew.2 k₂ b₂ ((hback k₂ a b₂).mpr ⟨hmem, har⟩)⟩
    settled := by
      intro k' hk'
      have hne : k' ≠ k := fun hne => hk (hne ▸ hk')
      exact (h.settled k' hk').congr rfl (fun _ _ => rfl) (fun _ _ _ => rfl) rfl rfl
        (hother k' hne) }

/-- The puddles are in another order. -/
def Shape.setRecords (g : Shape) (k : Key) (records : List (Addr × ℕ)) : Shape :=
  { g with records := Function.update g.records k records }

theorem Sound.reorderRecords (h : Sound setup s g held P) (k : Key) (hk : ¬ P k)
    (records : List (Addr × ℕ)) (hperm : records.Perm (g.records k)) :
    Sound setup s (g.setRecords k records) held P := by
  have hself : (g.setRecords k records).records k = records := Function.update_self _ _ _
  have hother : ∀ k', k' ≠ k → (g.setRecords k records).records k' = g.records k' :=
    fun k' hk' => Function.update_of_ne hk' _ _
  have hmem : ∀ k' record, record ∈ (g.setRecords k records).records k' ↔ record ∈ g.records k' := by
    intro k' record
    by_cases hk' : k' = k
    · rw [hk', hself, hperm.mem_iff]
    · rw [hother k' hk']
  exact {
    deiniting := h.deiniting
    expandSize := h.expandSize
    flags := h.flags
    balanced := h.balanced
    domain := h.domain
    inUse := h.inUse
    firstChunk := fun k' r b hr => h.firstChunk k' r b ((hmem k' _).mp hr)
    record := fun k' r b hr => h.record k' r b ((hmem k' _).mp hr)
    apart := fun k₁ k₂ r b₁ b₂ h₁ h₂ => h.apart k₁ k₂ r b₁ b₂ ((hmem k₁ _).mp h₁) ((hmem k₂ _).mp h₂)
    nodup := by
      intro k'
      by_cases hk' : k' = k
      · rw [hk', hself]
        exact (hperm.map Prod.fst).nodup_iff.mpr (h.nodup k)
      · rw [hother k' hk']
        exact h.nodup k'
    blocks := by
      intro k'
      by_cases hk' : k' = k
      · rw [hk', hself]
        exact ((hperm.map Prod.snd).append_left (g.orphans k)).trans (h.blocks k)
      · rw [hother k' hk']
        exact h.blocks k'
    bypassed := by
      intro k' hk'
      by_cases hkk : k' = k
      · rw [hkk, hself]
        rw [hkk] at hk'
        rw [h.bypassed k hk'] at hperm
        exact hperm.eq_nil
      · rw [hother k' hkk]
        exact h.bypassed k' hk'
    own := fun r b hr => h.own r b ((hmem puddleKey _).mp hr)
    heldBy := by
      intro a k'
      rw [h.heldBy a k']
      simp only [hmem]
      rfl
    settled := by
      intro k' hk'
      have hne : k' ≠ k := fun hne => hk (hne ▸ hk')
      exact (h.settled k' hk').congr rfl (fun _ _ => rfl) (fun _ _ _ => rfl) rfl rfl
        (hother k' hne) }

end Records

section Blocks

/-- A new block of free chunks, which is an orphan. -/
def Shape.addBlock (setup : ℕ → Pool) (g : Shape) (k : Key) (b : ℕ) : Shape :=
  { g with
    ledger := g.ledger.addBlock (size setup) k b
    orphans := Function.update g.orphans k (b :: g.orphans k) }

/-- An orphaned block is freed. -/
def Shape.discard (g : Shape) (k : Key) (b : ℕ) (orphans : List ℕ) : Shape :=
  { g with
    ledger := g.ledger.discard k b
    orphans := Function.update g.orphans k orphans }

theorem State.xcalloc_new {b n : ℕ} {a : Addr} (hb : a.1 = b) (hi : a.2 < n) :
    (s.xcalloc b n).memory a = some .zero := if_pos ⟨hb, hi⟩

theorem State.xcalloc_old {b n : ℕ} {a : Addr} (hb : a.1 ≠ b) :
    (s.xcalloc b n).memory a = s.memory a := if_neg fun hnew => hb hnew.1

/-- No address in the block is in use. -/
def Fresh (s : State) (b : ℕ) : Prop := ∀ i, s.memory (b, i) = none

theorem Sound.notOwned (h : Sound setup s g held P) {b : ℕ} (hfresh : Fresh s b) (k : Key) :
    b ∉ g.ledger.blocks k := by
  intro hb
  obtain ⟨c, hc⟩ := (h.domain (b, 0)).mpr ⟨k, hb, size_pos setup k⟩
  rw [hfresh 0] at hc
  cases hc

theorem Sound.notFresh (h : Sound setup s g held P) {b : ℕ} (hfresh : Fresh s b) {k : Key}
    {a : Addr} (ha : a ∈ g.ledger.free k ∨ g.ledger.used a = some k) : a.1 ≠ b := by
  intro hab
  exact h.notOwned hfresh k (hab ▸ ((h.balanced.cell k a).mpr ha).1)

theorem Sound.addBlock (h : Sound setup s g held P) (k : Key) (hk : ¬ P k) (b : ℕ)
    (hfresh : Fresh s b) :
    Sound setup (s.xcalloc b (size setup k)) (g.addBlock setup k b) held P where
  deiniting := h.deiniting
  expandSize := h.expandSize
  flags := h.flags
  balanced := h.balanced.addBlock k b (h.notOwned hfresh)
  domain := by
    intro a
    change _ ↔ (g.ledger.addBlock (size setup) k b).Allocated (size setup) a
    rw [Ledger.addBlock_allocated, ← h.domain a]
    by_cases hab : a.1 = b
    · by_cases hi : a.2 < size setup k
      · rw [State.xcalloc_new hab hi]
        exact ⟨fun _ => Or.inr ⟨hab, hi⟩, fun _ => ⟨.zero, rfl⟩⟩
      · have hold : (s.xcalloc b (size setup k)).memory a = s.memory a :=
          if_neg fun hnew => hi hnew.2
        rw [hold]
        exact ⟨Or.inl, fun hor => hor.resolve_right fun hnew => hi hnew.2⟩
    · rw [State.xcalloc_old hab]
      exact ⟨Or.inl, fun hor => hor.resolve_right fun hnew => hab hnew.1⟩
  inUse := by
    intro a k' c hused hc
    rw [State.xcalloc_old (h.notFresh hfresh (Or.inr hused))] at hc
    exact h.inUse a k' c hused hc
  firstChunk := by
    intro k' r b' hmem
    rw [State.xcalloc_old (h.notFresh hfresh (Or.inr (h.record k' r b' hmem)))]
    exact h.firstChunk k' r b' hmem
  record := h.record
  apart := h.apart
  nodup := h.nodup
  blocks := by
    intro k'
    by_cases hk' : k' = k
    · rw [hk', show (g.addBlock setup k b).orphans k = b :: g.orphans k from
        Function.update_self _ _ _]
      change List.Perm _ ((g.ledger.addBlock (size setup) k b).blocks k)
      rw [Ledger.addBlock_blocks]
      exact (h.blocks k).cons b
    · rw [show (g.addBlock setup k b).orphans k' = g.orphans k' from Function.update_of_ne hk' _ _]
      change List.Perm _ ((g.ledger.addBlock (size setup) k b).blocks k')
      rw [Ledger.addBlock_blocks_other b hk']
      exact h.blocks k'
  bypassed := h.bypassed
  own := h.own
  heldBy := h.heldBy
  settled := by
    intro k' hk'
    have hne : k' ≠ k := fun hne => hk (hne ▸ hk')
    refine (h.settled k' hk').congr rfl ?_ ?_ (Ledger.addBlock_free_other b hne)
      (Ledger.addBlock_blocks_other b hne) rfl
    · intro a ha
      exact State.nextOf_congr (State.xcalloc_old (h.notFresh hfresh (Or.inl ha)))
    · intro r b' hmem
      exact State.puddleNext_congr
        (State.xcalloc_old (h.notFresh hfresh (Or.inr (h.record k' r b' hmem))))

/-- The memory after a block has been freed. -/
def State.freed (s : State) (b : ℕ) : State :=
  { s with memory := fun a => if a.1 = b then none else s.memory a }

theorem State.freed_other {b : ℕ} {a : Addr} (hab : a.1 ≠ b) :
    (s.freed b).memory a = s.memory a := if_neg hab

theorem State.free_ok {b : ℕ} {c : Chunk} (hc : s.memory (b, 0) = some c) :
    s.free (.chunk (b, 0)) = .ok (s.freed b) := by
  unfold State.free
  change (s.load (b, 0) >>= fun _ => Except.ok (s.freed b)) = _
  rw [State.load_ok hc]
  rfl

theorem Sound.discard (h : Sound setup s g held P) (k : Key) (hk : ¬ P k) (b : ℕ)
    (orphans : List ℕ) (horphans : (g.orphans k).Perm (b :: orphans))
    (hunused : ∀ i, g.ledger.used (b, i) = none) :
    Sound setup (s.freed b) (g.discard k b orphans) held P := by
  have hperm := (horphans.append_right ((g.records k).map Prod.snd)).symm.trans (h.blocks k)
  have hb : b ∈ g.ledger.blocks k := hperm.mem_iff.mp List.mem_cons_self
  have hused : ∀ a k', g.ledger.used a = some k' → a.1 ≠ b := by
    intro a k' ha hab
    have hnone := hunused a.2
    rw [show (b, a.2) = a from Prod.ext hab.symm rfl, ha] at hnone
    cases hnone
  exact {
    deiniting := h.deiniting
    expandSize := h.expandSize
    flags := h.flags
    balanced := h.balanced.discard k b hb hunused
    domain := by
      intro a
      change _ ↔ (g.ledger.discard k b).Allocated (size setup) a
      rw [h.balanced.discard_allocated k b hb, ← h.domain a]
      by_cases hab : a.1 = b
      · have hnone : (s.freed b).memory a = none := if_pos hab
        rw [hnone]
        constructor
        · intro hc
          obtain ⟨c, hc⟩ := hc
          cases hc
        · intro hc
          exact absurd hab hc.2
      · rw [State.freed_other hab]
        exact ⟨fun hc => ⟨hc, hab⟩, And.left⟩
    inUse := by
      intro a k' c ha hc
      rw [State.freed_other (hused a k' ha)] at hc
      exact h.inUse a k' c ha hc
    firstChunk := by
      intro k' r b' hmem
      rw [State.freed_other (hused r _ (h.record k' r b' hmem))]
      exact h.firstChunk k' r b' hmem
    record := h.record
    apart := h.apart
    nodup := h.nodup
    blocks := by
      intro k'
      by_cases hk' : k' = k
      · rw [hk', show (g.discard k b orphans).orphans k = orphans from Function.update_self _ _ _]
        change List.Perm _ ((g.ledger.discard k b).blocks k)
        rw [Ledger.discard_blocks]
        have herased := hperm.erase b
        rwa [List.cons_append, List.erase_cons_head] at herased
      · rw [show (g.discard k b orphans).orphans k' = g.orphans k' from
          Function.update_of_ne hk' _ _]
        change List.Perm _ ((g.ledger.discard k b).blocks k')
        rw [Ledger.discard_blocks_other b hk']
        exact h.blocks k'
    bypassed := h.bypassed
    own := h.own
    heldBy := h.heldBy
    settled := by
      intro k' hk'
      have hne : k' ≠ k := fun hne => hk (hne ▸ hk')
      refine (h.settled k' hk').congr rfl ?_ ?_ (Ledger.discard_free_other b hne)
        (Ledger.discard_blocks_other b hne) rfl
      · intro a ha
        apply State.nextOf_congr
        apply State.freed_other
        intro hab
        exact hne (h.balanced.apart k' k b (hab ▸ (h.balanced.of_free ha).1) hb)
      · intro r b' hmem
        exact State.puddleNext_congr (State.freed_other (hused r _ (h.record k' r b' hmem))) }

end Blocks

end LibAtrinik.Mempool

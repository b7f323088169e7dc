import LibAtrinik.MempoolSweep
import LibAtrinik.SortLinkedListPasses

namespace LibAtrinik.Mempool

open IntrusiveList BlockLedger SortLinkedList

variable {setup : ℕ → Pool} {s s' : State} {g g' : Shape} {held : Addr → Option Key}
  {P : Key → Prop} {k : Key} {p : Option Addr} {todo kept : List (Addr × ℕ)}

section Loop

theorem Shape.release_free (g : Shape) (k : Key) (hk : k ≠ puddleKey) (r : Addr) (b : ℕ)
    (rest : List (Addr × ℕ)) :
    (g.release k r b rest).ledger.free k = (g.ledger.free k).filter fun a => a.1 ≠ b :=
  (Function.update_of_ne hk _ _).trans (Ledger.discard_free k b)

/-- What the reclaim of a key leaves of the other keys. -/
structure Aside (g g' : Shape) (k : Key) : Prop where
  unchanged : ∀ k', k' ≠ k → k' ≠ puddleKey → Unchanged g g' k'
  records : ∀ k', k' ≠ k → g'.records k' = g.records k'
  orphans : ∀ k', k' ≠ k → g'.orphans k' = g.orphans k'

theorem aside_refl (g : Shape) (k : Key) : Aside g g k :=
  ⟨fun _ _ _ => ⟨rfl, rfl, rfl⟩, fun _ _ => rfl, fun _ _ => rfl⟩

theorem Aside.trans {g'' : Shape} (h : Aside g g' k) (h' : Aside g' g'' k) : Aside g g'' k where
  unchanged := fun k' hk hp => ⟨(h'.unchanged k' hk hp).free.trans (h.unchanged k' hk hp).free,
    (h'.unchanged k' hk hp).records.trans (h.unchanged k' hk hp).records,
    (h'.unchanged k' hk hp).orphans.trans (h.unchanged k' hk hp).orphans⟩
  records := fun k' hk => (h'.records k' hk).trans (h.records k' hk)
  orphans := fun k' hk => (h'.orphans k' hk).trans (h.orphans k' hk)

theorem aside_release (g : Shape) (k : Key) (r : Addr) (b : ℕ) (rest : List (Addr × ℕ)) :
    Aside g (g.release k r b rest) k where
  unchanged := by
    intro k' hk hp
    refine ⟨?_, Function.update_of_ne hk _ _, ?_⟩
    · exact (Function.update_of_ne hp _ _).trans (Ledger.discard_free_other b hk)
    · exact (Function.update_of_ne hk _ _).trans (Function.update_of_ne hk _ _)
  records := fun k' hk => Function.update_of_ne hk _ _
  orphans := fun k' hk => (Function.update_of_ne hk _ _).trans (Function.update_of_ne hk _ _)

/-- The number of free chunks of a block, as the counter of its puddle has it. -/
def counted (setup : ℕ → Pool) (g : Shape) (k : Key) (b : ℕ) : ℕ :=
  (UInt32.ofNat (freeIn (g.ledger.free k) b 0 (size setup k)).length).toNat

theorem counted_of_small {b : ℕ} (h : (freeIn (g.ledger.free k) b 0 (size setup k)).length < 2^32) :
    counted setup g k b = (freeIn (g.ledger.free k) b 0 (size setup k)).length :=
  UInt32.toNat_ofNat_of_lt' h

/-- The free chunks of the other blocks stay free when a block is given back. -/
theorem Shape.release_freeIn (g : Shape) (hk : k ≠ puddleKey) (r : Addr) {b b' : ℕ}
    (rest : List (Addr × ℕ)) (n : ℕ) (hne : b' ≠ b) :
    freeIn ((g.release k r b rest).ledger.free k) b' 0 n = freeIn (g.ledger.free k) b' 0 n := by
  apply freeIn_congr
  intro i _
  rw [Shape.release_free g k hk, List.mem_filter, decide_eq_true_iff]
  exact ⟨And.left, fun hin => ⟨hin, hne⟩⟩

/-- One round of the sweep, in which the chunks of a puddle have been counted. -/
theorem freePuddles_cons {s₁ s₂ : State} {c c₁ c₂ : Chunk} {r : Addr} {b n : ℕ} (pool : ℕ)
    (e : Exponent) (fuel freed : ℕ) (hc : s.memory r = some c)
    (hreset : s.modifyPuddle r (fun p =>
      { p with firstFree := .null, lastFree := .null, nrofFree := 0 }) = .ok s₁)
    (hc₁ : s₁.memory r = some c₁) (hfirst₁ : c₁.data.firstChunk = .chunk (b, 0))
    (hrun : countFree r (.chunk (b, 0)) n 0 s₁ = .ok s₂) (hc₂ : s₂.memory r = some c₂)
    (hfirst₂ : c₂.data.firstChunk = .chunk (b, 0)) :
    freePuddles pool e n (fuel+1) (some r) s freed =
      (if c₂.data.nrofFree.toNat = n ∨ (s₂.deiniting ∧ pool = poolPuddle) then do
        let s ← s₂.free (.chunk (b, 0))
        let s ← if ¬ s.deiniting ∨ pool ≠ poolPuddle then mempoolReturnChunk s poolPuddle 0 r
          else .ok s
        let s := s.modifyPool pool fun p =>
          (p.setNrofFree e (p.nrofFree e-n)).setNrofAllocated e (p.nrofAllocated e-n)
        freePuddles pool e n fuel c.data.next s (freed+1)
      else do
        let s ← s₂.modifyPuddle r fun p => { p with next := (s₂.pools pool).puddlelist e }
        let s := s.modifyPool pool fun p => p.setPuddlelist e (some r)
        freePuddles pool e n fuel c.data.next s freed) := by
  rw [freePuddles, State.load_ok hc]
  change (s.modifyPuddle r (fun p =>
    { p with firstFree := .null, lastFree := .null, nrofFree := 0 }) >>= fun s => _) = _
  rw [hreset]
  change (s₁.load r >>= fun c => _) = _
  rw [State.load_ok hc₁]
  change (countFree r c₁.data.firstChunk n 0 s₁ >>= fun s => _) = _
  rw [hfirst₁, hrun]
  change (s₂.load r >>= fun c => _) = _
  rw [State.load_ok hc₂, ← hfirst₂]
  rfl

/-- The sweep over the puddles of a key, of which none seems to be free that is not. -/
theorem freePuddles_spec (hsetup : setup poolPuddle = mempoolCreate 10 allowFreeing) (hk : ¬ P k)
    (hP : k ≠ puddleKey → P puddleKey) (fuel freed : ℕ) (hfuel : todo.length ≤ fuel)
    (h : Sweep setup s g held P k p todo kept)
    (hexact : ∀ r b, (r, b) ∈ todo → counted setup g k b = size setup k →
      (freeIn (g.ledger.free k) b 0 (size setup k)).length = size setup k) :
    ∃ s' g' freed' kept', freePuddles k.1 k.2 (size setup k) fuel p s freed = .ok (s', freed') ∧
      Sweep setup s' g' held P k none [] kept' ∧ Aside g g' k ∧
      ((k = puddleKey ∨ ∀ r b, (r, b) ∈ todo → counted setup g k b ≠ size setup k) → g' = g) ∧
      (∀ r b, (r, b) ∈ kept' → ((r, b) ∈ todo ∨ (r, b) ∈ kept) ∧
        freeIn (g'.ledger.free k) b 0 (size setup k) =
          freeIn (g.ledger.free k) b 0 (size setup k)) ∧
      kept'.length ≤ todo.length+kept.length := by
  induction fuel generalizing s g p todo kept freed with
  | zero =>
    have hnil : todo = [] := List.eq_nil_of_length_eq_zero (Nat.le_zero.mp hfuel)
    rw [hnil] at h
    have hp : p = none := h.ahead
    rw [hp] at h ⊢
    refine ⟨s, g, freed, kept, by rw [freePuddles], h, aside_refl g k, fun _ => rfl, ?_,
      Nat.le_add_left _ _⟩
    intro r b hmem
    exact ⟨Or.inr hmem, rfl⟩
  | succ fuel ih =>
    cases todo with
    | nil =>
      have hp : p = none := h.ahead
      rw [hp] at h ⊢
      refine ⟨s, g, freed, kept, by rw [freePuddles], h, aside_refl g k, fun _ => rfl, ?_,
        Nat.le_add_left _ _⟩
      intro r b hmem
      exact ⟨Or.inr hmem, rfl⟩
    | cons head todo =>
      obtain ⟨r, b⟩ := head
      have hp : p = some r := h.ahead.1
      obtain ⟨_, _, hothers⟩ := h.head
      obtain ⟨c, s₁, s₂, c₂, hc, hq, hreset, ⟨c₁, hc₁, hfirst₁⟩, hrun, h₂, hpools, hc₂, hfirst₂,
        hnumber, hlisted, hsame⟩ := h.count hk
      have hnat : c₂.data.nrofFree.toNat = counted setup g k b := congrArg UInt32.toNat hnumber
      have hdeiniting : s₂.deiniting = false := h₂.deiniting
      have hstart := freePuddles_cons k.1 k.2 fuel freed hc hreset hc₁ hfirst₁ hrun hc₂ hfirst₂
      rw [hp, hstart]
      by_cases hfull : counted setup g k b = size setup k
      · -- no chunk of the puddle is in use: its block and its record are given back
        obtain ⟨hkey, s₄, hfree, hreturn, hsweep⟩ :=
          h.release hk hsetup hP hq h₂ hpools (hexact r b List.mem_cons_self hfull) hsame
        have hfreeIn : ∀ r' b', (r', b') ∈ todo ++ kept →
            freeIn ((g.release k r b (todo ++ kept)).ledger.free k) b' 0 (size setup k) =
              freeIn (g.ledger.free k) b' 0 (size setup k) :=
          fun r' b' hmem => g.release_freeIn hkey r _ _ (hothers r' b' hmem).2.2.2
        obtain ⟨s', g', freed', kept', hloop, hdone, haside, hsameShape, hkept, hlength⟩ :=
          ih (freed+1) (by
            rw [List.length_cons] at hfuel
            omega) hsweep (by
            intro r' b' hmem
            unfold counted
            rw [hfreeIn r' b' (List.mem_append_left _ hmem)]
            exact hexact r' b' (List.mem_cons_of_mem _ hmem))
        refine ⟨s', g', freed', kept', ?_, hdone, (aside_release g k r b _).trans haside,
          fun hor => ?_, ?_, ?_⟩
        · rw [if_pos (Or.inl (hnat.trans hfull)), hfree]
          change (if ¬ s₂.deiniting ∨ k.1 ≠ poolPuddle then _ else _ : Except Fault _) = _
          rw [if_pos (Or.inl (by rw [hdeiniting]; exact Bool.false_ne_true)), hreturn]
          exact hloop
        · rcases hor with heq | hnone
          · exact absurd heq hkey
          · exact absurd hfull (hnone r b List.mem_cons_self)
        · intro r' b' hmem
          obtain ⟨hfrom, hsame'⟩ := hkept r' b' hmem
          refine ⟨hfrom.imp_left (List.mem_cons_of_mem _), hsame'.trans (hfreeIn r' b' ?_)⟩
          exact List.mem_append.mpr hfrom
        · rw [List.length_cons]
          omega
      · -- the puddle is kept, with a list of its free chunks
        have hsweep := h.keep hk hq h₂ hpools hc₂ hnumber hlisted hsame
        obtain ⟨s', g', freed', kept', hloop, hdone, haside, hsameShape, hkept, hlength⟩ :=
          ih freed (by
            rw [List.length_cons] at hfuel
            omega) hsweep (fun r' b' hmem => hexact r' b' (List.mem_cons_of_mem _ hmem))
        refine ⟨s', g', freed', kept', ?_, hdone, haside, fun hor => hsameShape (hor.imp_right
          fun hnone r' b' hmem => hnone r' b' (List.mem_cons_of_mem _ hmem)), ?_, ?_⟩
        · have hno : ¬ (c₂.data.nrofFree.toNat = size setup k ∨
              (s₂.deiniting ∧ k.1 = poolPuddle)) := by
            rw [hnat, hdeiniting]
            intro hor
            exact hor.elim hfull fun hand => Bool.false_ne_true hand.1
          rw [if_neg hno, State.modifyPuddle_ok _ hc₂, hpools]
          exact hloop
        · intro r' b' hmem
          obtain ⟨hfrom, hsame'⟩ := hkept r' b' hmem
          refine ⟨?_, hsame'⟩
          rcases hfrom with hold | hnew
          · exact Or.inl (List.mem_cons_of_mem _ hold)
          · rcases List.mem_cons.mp hnew with heq | hold
            · exact Or.inl (heq ▸ List.mem_cons_self)
            · exact Or.inr hold
        · rw [List.length_cons] at hlength ⊢
          omega

end Loop

section Order

/-- The links of records, seen from the pointers to them. -/
theorem seg_pointers {links : Links (Option Addr)} {q : Option Addr} {l : List Addr} :
    Seg id links p (l.map some) q ↔ Seg some (fun a => links (some a)) p l q := by
  induction l generalizing p with
  | nil => exact Iff.rfl
  | cons a l ih =>
    rw [List.map_cons, seg_cons, seg_cons]
    constructor
    · intro h
      obtain ⟨hp, r, hr, hrest⟩ := h
      exact ⟨hp, r, hr, ih.mp hrest⟩
    · intro h
      obtain ⟨hp, r, hr, hrest⟩ := h
      exact ⟨hp, r, hr, ih.mpr hrest⟩

/-- Two records can always be compared. -/
theorem sortPuddleByNrofFree_total {r r' : Addr} {c c' : Chunk} (hc : s.memory r = some c)
    (hc' : s.memory r' = some c') :
    ∃ order, sortPuddleByNrofFree s (some r) (some r') = some order := by
  unfold sortPuddleByNrofFree
  dsimp only
  rw [hc, hc']
  by_cases hless : c.data.nrofFree < c'.data.nrofFree
  · exact ⟨-1, if_pos hless⟩
  by_cases hmore : c.data.nrofFree > c'.data.nrofFree
  · exact ⟨1, (if_neg hless).trans (if_pos hmore)⟩
  · exact ⟨0, (if_neg hless).trans (if_neg hmore)⟩

/-- Pointers to records in another order are the pointers to the puddles in another order. -/
theorem exists_perm_of_pointers {l : List (Option Addr)}
    (h : l.Perm ((kept.map Prod.fst).map some)) :
    ∃ kept' : List (Addr × ℕ), kept'.Perm kept ∧ l = (kept'.map Prod.fst).map some := by
  have hcomp : Relation.Comp (· = List.map (fun record : Addr × ℕ => some record.1) ·)
      List.Perm l kept := by
    rw [List.eq_map_comp_perm]
    change l.Perm (kept.map fun record => some record.1)
    rwa [show kept.map (fun record => some record.1) = (kept.map Prod.fst).map some from
      (List.map_map).symm]
  obtain ⟨kept', hl, hperm⟩ := hcomp
  exact ⟨kept', hperm, hl.trans List.map_map.symm⟩

/-- Only the links of chunks change, and of those only the ones that are not as before. -/
theorem setPuddleLinks_memory {links : Links (Option Addr)} {l : List (Option Addr)}
    (hsame : ∀ q, q ∉ l → links q = s.puddleLinks q) {a : Addr} {c : Chunk}
    (hc : s.memory a = some c) : ∃ link,
      (s.setPuddleLinks links).memory a = some { c with data := { c.data with next := link } } ∧
      (∀ link', links (some a) = some link' → link = link') ∧
      (some a ∉ l → link = c.data.next) := by
  have hold : s.puddleLinks (some a) = some c.data.next := by
    change (s.memory a).map _ = _
    rw [hc]
    rfl
  cases hlink : links (some a) with
  | some link =>
    refine ⟨link, ?_, ?_, ?_⟩
    · change (s.memory a).map _ = _
      rw [hc, Option.map_some, hlink]
    · intro link' heq
      exact Option.some.inj heq
    · intro hnot
      rw [hsame (some a) hnot, hold] at hlink
      exact (Option.some.inj hlink).symm
  | none =>
    refine ⟨c.data.next, ?_, ?_, fun _ => rfl⟩
    · change (s.memory a).map _ = _
      rw [hc, Option.map_some, hlink]
    · intro link' heq
      cases heq

/-- The puddles are sorted, which only changes the links between their records. -/
theorem sortPuddles_spec (hk : ¬ P k) (h : Sweep setup s g held P k p [] kept)
    (stack : Fin 4 → Tape (Option Addr)) (fuel : ℕ) (hfuel : kept.length ≤ fuel) :
    ∃ (first : Option Addr) (s' : State) (kept' : List (Addr × ℕ)),
      sortPuddles stack fuel ((s.pools k.1).puddlelist k.2) s = .ok (first, s') ∧
      kept'.Perm kept ∧ Seg some s'.puddleNext first (kept'.map Prod.fst) none ∧
      Sound setup s' g held P ∧ s'.pools = s.pools ∧
      (∀ a c, s.memory a = some c → ∃ link,
        s'.memory a = some { c with data := { c.data with next := link } }) := by
  have hin : ∀ record ∈ kept, record ∈ g.records k := fun record hmem => h.records.mem_iff.mpr hmem
  let l : List (Option Addr) := (kept.map Prod.fst).map some
  have hlength : l.length = kept.length := by rw [List.length_map, List.length_map]
  have hmemory : ∀ q ∈ l, ∃ r c, q = some r ∧ s.memory r = some c := by
    intro q hq
    obtain ⟨r, hr, hq⟩ := List.mem_map.mp hq
    obtain ⟨record, hrecord, hr⟩ := List.mem_map.mp hr
    obtain ⟨c, hc, _⟩ := h.sound.firstChunk k record.1 record.2 (hin record hrecord)
    exact ⟨r, c, hq.symm, hr ▸ hc⟩
  have hlinked : Seg id s.puddleLinks ((s.pools k.1).puddlelist k.2) l none :=
    seg_pointers.mpr (h.behind.congr fun _ _ => rfl)
  have hmarker : s.puddleLinks none = none := rfl
  -- the sort relinks the pointers to the records; the comparison of two of them never fails
  obtain ⟨first, links, l', hsort, hperm, hchain, hsame⟩ :=
    sortLinkedList_spec (sortPuddleByNrofFree s) none none ((s.pools k.1).puddlelist k.2) stack fuel l
      hlinked hmarker (hlength ▸ hfuel) (by
        intro q hq q' hq'
        obtain ⟨r, c, hr, hc⟩ := hmemory q hq
        obtain ⟨r', c', hr', hc'⟩ := hmemory q' hq'
        rw [hr, hr']
        exact sortPuddleByNrofFree_total hc hc')
  obtain ⟨kept', hperm', hl'⟩ := exists_perm_of_pointers hperm
  have hend : (if 1 < l.length then none else none : Option Addr) = none := by split <;> rfl
  rw [hend, hl', seg_pointers] at hchain
  refine ⟨first, s.setPuddleLinks links, kept', ?_, hperm', ?_, ?_, rfl, ?_⟩
  · unfold sortPuddles
    rw [hsort]
  · apply hchain.congr
    intro r hr
    obtain ⟨record, hrecord, hr⟩ := List.mem_map.mp hr
    obtain ⟨c, hc, _⟩ :=
      h.sound.firstChunk k record.1 record.2 (hin record (hperm'.mem_iff.mp hrecord))
    rw [hr] at hc
    obtain ⟨link, hstored, hlink, _⟩ := setPuddleLinks_memory hsame hc
    rw [State.puddleNext_eq hstored]
    obtain ⟨link', hlink'⟩ := hchain.link r (hr ▸ List.mem_map_of_mem hrecord)
    rw [hlink', hlink link' hlink']
  · apply h.sound.rewrite
    · intro a ha
      rw [ha]
      rfl
    · intro a c hc
      obtain ⟨link, hstored, _, hkeep⟩ := setPuddleLinks_memory hsame hc
      refine ⟨_, hstored, Or.inl rfl, fun k' b hrecord => ⟨rfl, fun hk' => ?_⟩⟩
      apply hkeep
      intro hmem
      obtain ⟨r, hr, hra⟩ := List.mem_map.mp hmem
      obtain ⟨record, hin', hr⟩ := List.mem_map.mp hr
      have hra : r = a := Option.some.inj hra
      have hrecord' : (a, record.2) ∈ g.records k := hra ▸ hr ▸ hin record hin'
      exact hk (h.sound.apart k' k a b record.2 hrecord hrecord' ▸ hk')
  · intro a c hc
    obtain ⟨link, hstored, _⟩ := setPuddleLinks_memory hsame hc
    exact ⟨link, hstored⟩

end Order

end LibAtrinik.Mempool

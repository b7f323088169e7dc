import LibAtrinik.MempoolPuddles

namespace LibAtrinik.Mempool

open IntrusiveList BlockLedger

variable {setup : ℕ → Pool} {s s' : State} {g : Shape} {held : Addr → Option Key} {P : Key → Prop}
  {k : Key}

theorem mem_freeIn {free : List Addr} {b n : ℕ} {a : Addr} :
    a ∈ freeIn free b 0 n ↔ a.1 = b ∧ a.2 < n ∧ a ∈ free := by
  unfold freeIn
  rw [← List.range_eq_range', List.mem_filter, decide_eq_true_iff]
  change a ∈ cells n b ∧ _ ↔ _
  rw [mem_cells, and_assoc]

theorem freeIn_nodup (free : List Addr) (b n : ℕ) : (freeIn free b 0 n).Nodup := by
  unfold freeIn
  rw [← List.range_eq_range']
  exact (cells_nodup n b).filter _

/-- The free chunks of a block are all of its chunks. -/
theorem freeIn_full {free : List Addr} {b n : ℕ} (h : (freeIn free b 0 n).length = n) :
    ∀ i, i < n → (b, i) ∈ free := by
  intro i hi
  have hall : ((List.range' 0 n).map (Prod.mk b)).filter (fun a => a ∈ free) =
      (List.range' 0 n).map (Prod.mk b) := by
    apply List.Sublist.eq_of_length List.filter_sublist
    rw [List.length_map, List.length_range']
    exact h
  have hmem : (b, i) ∈ ((List.range' 0 n).map (Prod.mk b)).filter (fun a => a ∈ free) := by
    rw [hall, ← List.range_eq_range']
    exact mem_cells.mpr ⟨rfl, hi⟩
  exact of_decide_eq_true (List.mem_filter.mp hmem).2

theorem freeIn_congr {free free' : List Addr} {b n : ℕ}
    (h : ∀ i, i < n → ((b, i) ∈ free' ↔ (b, i) ∈ free)) : freeIn free' b 0 n = freeIn free b 0 n := by
  unfold freeIn
  apply List.filter_congr
  intro a ha
  rw [← List.range_eq_range'] at ha
  obtain ⟨hb, hi⟩ := mem_cells.mp ha
  have haddr : a = (b, a.2) := Prod.ext hb rfl
  rw [haddr, decide_eq_decide]
  exact h a.2 hi

theorem Listed.congr {p : Puddle} {l : List Addr} (h : Listed s p l)
    (hsame : ∀ a ∈ l, s'.memory a = s.memory a) : Listed s' p l := by
  refine ⟨h.chain.congr ?_, h.last⟩
  intro a ha
  exact State.nextOf_congr (hsame a ha)

/-- The chunks that a list may name all lie in one block. -/
theorem Listed.congr_block {p : Puddle} {free : List Addr} {b n : ℕ}
    (h : Listed s p (freeIn free b 0 n).reverse)
    (hsame : ∀ i, s'.memory (b, i) = s.memory (b, i)) :
    Listed s' p (freeIn free b 0 n).reverse := by
  apply h.congr
  intro a ha
  have hb := (mem_freeIn.mp (List.mem_reverse.mp ha)).1
  rw [show a = (b, a.2) from Prod.ext hb rfl]
  exact hsame a.2

theorem Sound.puddleBlocks (h : Sound setup s g held P) (horphans : g.orphans k = []) :
    ((g.records k).map Prod.snd).Perm (g.ledger.blocks k) := by
  have hblocks := h.blocks k
  rwa [horphans, List.nil_append] at hblocks

/-- A record lies in no block of its key except, for the records of records, in its own one. -/
theorem Sound.recordOutside (h : Sound setup s g held P) {r : Addr} {b b' : ℕ}
    (hr : (r, b) ∈ g.records k) (hb' : b' ∈ g.ledger.blocks k) (hne : b' ≠ b) : r.1 ≠ b' := by
  intro heq
  have hused := h.balanced.of_used (h.record k r b hr)
  have hk : k = puddleKey := h.balanced.apart k puddleKey b' hb' (heq ▸ hused.1)
  rw [hk] at hr
  exact hne (heq.symm.trans (h.own r b hr).symm)

/-- Where the loop is. -/
structure Sweep (setup : ℕ → Pool) (s : State) (g : Shape) (held : Addr → Option Key)
    (P : Key → Prop) (k : Key) (p : Option Addr) (todo kept : List (Addr × ℕ)) : Prop where
  sound : Sound setup s g held P
  records : (g.records k).Perm (todo ++ kept)
  orphans : g.orphans k = []
  ahead : Seg some s.puddleNext p (todo.map Prod.fst) none
  behind : Seg some s.puddleNext ((s.pools k.1).puddlelist k.2) (kept.map Prod.fst) none
  nrofFree : (s.pools k.1).nrofFree k.2 = (g.ledger.free k).length
  nrofAllocated : (s.pools k.1).nrofAllocated k.2 = (g.ledger.blocks k).length*size setup k
  untouched : ∀ r b, (r, b) ∈ todo → ∀ i, i < size setup k →
    ∃ c, s.memory (b, i) = some c ∧ (c.next = .null ↔ (b, i) ∉ g.ledger.free k)
  listed : ∀ r b, (r, b) ∈ kept → ∃ c, s.memory r = some c ∧
    c.data.nrofFree = UInt32.ofNat (freeIn (g.ledger.free k) b 0 (size setup k)).length ∧
    ((freeIn (g.ledger.free k) b 0 (size setup k)).length < 2^32 →
      Listed s c.data (freeIn (g.ledger.free k) b 0 (size setup k)).reverse)

section Step

variable {p : Option Addr} {r : Addr} {b : ℕ} {todo kept : List (Addr × ℕ)}

/-- The first puddle of the list has a record of its own and a block of its own. -/
theorem Sweep.head (h : Sweep setup s g held P k p ((r, b) :: todo) kept) :
    (r, b) ∈ g.records k ∧ b ∈ g.ledger.blocks k ∧
    (∀ r' b', (r', b') ∈ todo ++ kept →
      (r', b') ∈ g.records k ∧ b' ∈ g.ledger.blocks k ∧ r' ≠ r ∧ b' ≠ b) := by
  have hperm := h.records
  rw [List.cons_append] at hperm
  have hin : (r, b) ∈ g.records k := hperm.mem_iff.mpr List.mem_cons_self
  have hblocks := h.sound.puddleBlocks h.orphans
  have hnodup := (hperm.map Prod.fst).nodup_iff.mp (h.sound.nodup k)
  have hnodupB := (hperm.map Prod.snd).nodup_iff.mp
    (hblocks.nodup_iff.mpr (h.sound.balanced.blocks_nodup k))
  rw [List.map_cons, List.nodup_cons] at hnodup hnodupB
  refine ⟨hin, hblocks.mem_iff.mp (List.mem_map_of_mem hin), ?_⟩
  intro r' b' hmem
  have hin' : (r', b') ∈ g.records k := hperm.mem_iff.mpr (List.mem_cons_of_mem _ hmem)
  refine ⟨hin', hblocks.mem_iff.mp (List.mem_map_of_mem hin'), ?_, ?_⟩
  · intro heq
    exact hnodup.1 (List.mem_map.mpr ⟨(r', b'), hmem, heq⟩)
  · intro heq
    exact hnodupB.1 (List.mem_map.mpr ⟨(r', b'), hmem, heq⟩)

/-- The free chunks of the first puddle have been counted and linked. -/
theorem Sweep.count (h : Sweep setup s g held P k p ((r, b) :: todo) kept) (hk : ¬ P k) :
    ∃ c s₁ s₂ c₂, s.memory r = some c ∧ Seg some s.puddleNext c.data.next (todo.map Prod.fst) none ∧
      s.modifyPuddle r (fun p => { p with firstFree := .null, lastFree := .null, nrofFree := 0 }) =
        .ok s₁ ∧
      (∃ c₁, s₁.memory r = some c₁ ∧ c₁.data.firstChunk = .chunk (b, 0)) ∧
      countFree r (.chunk (b, 0)) (size setup k) 0 s₁ = .ok s₂ ∧ Sound setup s₂ g held P ∧
      s₂.pools = s.pools ∧ s₂.memory r = some c₂ ∧ c₂.data.firstChunk = .chunk (b, 0) ∧
      c₂.data.nrofFree =
        UInt32.ofNat (freeIn (g.ledger.free k) b 0 (size setup k)).length ∧
      ((freeIn (g.ledger.free k) b 0 (size setup k)).length < 2^32 →
        Listed s₂ c₂.data (freeIn (g.ledger.free k) b 0 (size setup k)).reverse) ∧
      (∀ x : Addr, x ≠ r → x.1 ≠ b ∨ x ∉ g.ledger.free k → s₂.memory x = s.memory x) := by
  obtain ⟨hin, _, _⟩ := h.head
  obtain ⟨c, hc, hfirst⟩ := h.sound.firstChunk k r b hin
  have htodo := h.ahead
  rw [List.map_cons] at htodo
  obtain ⟨_, q, hq, hrest⟩ := htodo
  rw [State.puddleNext_eq hc] at hq
  let d₁ : Puddle := { c.data with firstFree := .null, lastFree := .null, nrofFree := 0 }
  let s₁ := s.store r { c with data := d₁ }
  have h₁ : Sound setup s₁ g held P := h.sound.storeRecord hk hin hc d₁ rfl
  have hc₁ : s₁.memory r = some { c with data := d₁ } := State.store_self _
  obtain ⟨s₂, c₂, hrun, h₂, hpools, hc₂, hfirst₂, _, hcount₂, hlisted₂, hsame⟩ :=
    countFree_spec hk r b hin (size setup k) 0 [] h₁ _ hc₁ rfl
      (fun _ => ⟨rfl, fun a ha => absurd ha (by simp)⟩) (fun a ha => absurd ha List.not_mem_nil)
      (by
        intro i _ hi
        obtain ⟨ci, hci, hstatus⟩ := h.untouched r b List.mem_cons_self i (by omega)
        by_cases hir : (b, i) = r
        · rw [hir] at hci hstatus ⊢
          rw [hc] at hci
          rw [← Option.some.inj hci] at hstatus
          exact ⟨_, hc₁, hstatus⟩
        · exact ⟨ci, (State.store_other _ hir).trans hci, hstatus⟩)
  rw [List.length_nil, Nat.zero_add] at hcount₂ hlisted₂
  rw [List.append_nil] at hlisted₂
  refine ⟨c, s₁, s₂, c₂, hc, ?_, State.modifyPuddle_ok _ hc, ⟨_, hc₁, hfirst⟩, hrun, h₂, hpools, hc₂,
    hfirst₂.trans hfirst, hcount₂, hlisted₂, ?_⟩
  · rwa [Option.some.inj hq]
  · intro x hxr hx
    rw [hsame x hxr hx, State.store_other _ hxr]

/-- A puddle with a chunk in use is kept. -/
theorem Sweep.keep (h : Sweep setup s g held P k p ((r, b) :: todo) kept) (hk : ¬ P k)
    {s₂ : State} {c₂ : Chunk} {q : Option Addr}
    (hq : Seg some s.puddleNext q (todo.map Prod.fst) none) (h₂ : Sound setup s₂ g held P)
    (hpools : s₂.pools = s.pools) (hc₂ : s₂.memory r = some c₂)
    (hcount : c₂.data.nrofFree =
      UInt32.ofNat (freeIn (g.ledger.free k) b 0 (size setup k)).length)
    (hlisted : (freeIn (g.ledger.free k) b 0 (size setup k)).length < 2^32 →
      Listed s₂ c₂.data (freeIn (g.ledger.free k) b 0 (size setup k)).reverse)
    (hsame : ∀ x : Addr, x ≠ r → x.1 ≠ b ∨ x ∉ g.ledger.free k → s₂.memory x = s.memory x) :
    Sweep setup
      ((s₂.store r { c₂ with data := { c₂.data with next := (s.pools k.1).puddlelist k.2 } }).modifyPool
        k.1 fun pool => pool.setPuddlelist k.2 (some r))
      g held P k q todo ((r, b) :: kept) := by
  obtain ⟨hin, hblock, hothers⟩ := h.head
  let d₃ : Puddle := { c₂.data with next := (s.pools k.1).puddlelist k.2 }
  let s₃ := s₂.store r { c₂ with data := d₃ }
  let f : Pool → Pool := fun pool => pool.setPuddlelist k.2 (some r)
  have hpool : (s₃.modifyPool k.1 f).pools k.1 = f (s.pools k.1) := by
    rw [State.modifyPool_self]
    exact congrArg f (congrFun hpools k.1)
  have hused := h.sound.record k r b hin
  -- records and what lies in other blocks are as before
  have hrecord : ∀ r' b', (r', b') ∈ todo ++ kept → s₃.memory r' = s.memory r' := by
    intro r' b' hmem
    obtain ⟨hin', _, hr', _⟩ := hothers r' b' hmem
    refine (State.store_other _ hr').trans (hsame r' hr' (Or.inr ?_))
    exact h.sound.balanced.used_not_free (h.sound.record k r' b' hin') k
  have hchunk : ∀ r' b', (r', b') ∈ todo ++ kept → ∀ i, s₃.memory (b', i) = s.memory (b', i) := by
    intro r' b' hmem i
    obtain ⟨_, hblock', _, hb'⟩ := hothers r' b' hmem
    have hir : (b', i) ≠ r := by
      intro heq
      exact h.sound.recordOutside hin hblock' hb' (congrArg Prod.fst heq).symm
    exact (State.store_other _ hir).trans (hsame (b', i) hir (Or.inl hb'))
  exact {
    sound := (h₂.storeRecord hk hin hc₂ d₃ rfl).modifyPool k hk f (agrees_setPuddlelist _ _ _)
    records := h.records.trans List.perm_middle.symm
    orphans := h.orphans
    ahead := records_congr hq fun r' b' hmem => hrecord r' b' (List.mem_append_left _ hmem)
    behind := by
      rw [hpool, List.map_cons]
      have hhead : (f (s.pools k.1)).puddlelist k.2 = some r := Function.update_self _ _ _
      rw [hhead]
      refine ⟨rfl, (s.pools k.1).puddlelist k.2, State.puddleNext_eq (State.store_self _), ?_⟩
      exact records_congr h.behind fun r' b' hmem => hrecord r' b' (List.mem_append_right _ hmem)
    nrofFree := by
      rw [hpool]
      exact h.nrofFree
    nrofAllocated := by
      rw [hpool]
      exact h.nrofAllocated
    untouched := by
      intro r' b' hmem i hi
      obtain ⟨c, hc, hstatus⟩ := h.untouched r' b' (List.mem_cons_of_mem _ hmem) i hi
      exact ⟨c, (hchunk r' b' (List.mem_append_left _ hmem) i).trans hc, hstatus⟩
    listed := by
      intro r' b' hmem
      rcases List.mem_cons.mp hmem with heq | hold
      · rw [(Prod.mk.inj heq).1, (Prod.mk.inj heq).2]
        refine ⟨_, State.store_self _, hcount, fun hsmall => ⟨?_, (hlisted hsmall).last⟩⟩
        apply (hlisted hsmall).chain.congr
        intro a ha
        have hfree := (mem_freeIn.mp (List.mem_reverse.mp ha)).2.2
        apply State.nextOf_congr
        apply State.store_other
        intro har
        exact h.sound.balanced.used_not_free hused k (har ▸ hfree)
      · obtain ⟨c, hc, hnumber, hlist⟩ := h.listed r' b' hold
        have hmem' := List.mem_append_right todo hold
        exact ⟨c, (hrecord r' b' hmem').trans hc, hnumber,
          fun hsmall => (hlist hsmall).congr_block (hchunk r' b' hmem')⟩ }

/-- The ledger after the block and the record of a puddle have been given back. -/
def Shape.release (g : Shape) (k : Key) (r : Addr) (b : ℕ) (rest : List (Addr × ℕ)) : Shape :=
  (((g.detach k b rest).discard k b []).give puddleKey r)

/-- No chunk of a block that is free throughout is in use. -/
theorem Sound.unused_of_full (h : Sound setup s g held P) (hblock : b ∈ g.ledger.blocks k)
    (hfull : (freeIn (g.ledger.free k) b 0 (size setup k)).length = size setup k) (i : ℕ) :
    g.ledger.used (b, i) = none := by
  cases hi : g.ledger.used (b, i) with
  | none => rfl
  | some k' =>
    obtain ⟨hblock', hindex⟩ := h.balanced.of_used hi
    rw [h.balanced.apart k' k b hblock' hblock] at hindex
    exact absurd (freeIn_full hfull i hindex) (h.balanced.used_not_free hi k)

theorem ne_of_used {x : Addr} {k' : Key} (hunused : ∀ i, g.ledger.used (b, i) = none)
    (hx : g.ledger.used x = some k') : x.1 ≠ b := by
  intro heq
  have hnone := hunused x.2
  rw [show (b, x.2) = x from Prod.ext heq.symm rfl, hx] at hnone
  cases hnone

/-- The record of a puddle is given up, then its block, and then the chunk of the record is
returned. -/
theorem Sound.release (h : Sound setup s g held P) (hk : ¬ P k) (hP : P puddleKey)
    (hsetup : setup poolPuddle = mempoolCreate 10 allowFreeing) {rest : List (Addr × ℕ)}
    (hrecords : (g.records k).Perm ((r, b) :: rest)) (horphans : g.orphans k = [])
    (hunused : ∀ i, g.ledger.used (b, i) = none) (hfirst : (b, 0) ∈ g.ledger.free k) :
    ∃ s', s.free (.chunk (b, 0)) = .ok (s.freed b) ∧
      mempoolReturnChunk (s.freed b) poolPuddle 0 r = .ok s' ∧
      Sound setup s' (g.release k r b rest) held P ∧ OnlyAt puddleKey s s' ∧
      ∀ x : Addr, x ≠ r → x.1 ≠ b → s'.memory x = s.memory x := by
  have hin : (r, b) ∈ g.records k := hrecords.mem_iff.mpr List.mem_cons_self
  have hheld : held r = none := by
    cases hr : held r with
    | none => rfl
    | some k' => exact absurd hin (((h.heldBy r k').mp hr).2 k b)
  have hdetached := h.detach k hk r b rest hrecords
  have hnow : ((g.detach k b rest).orphans k).Perm (b :: []) := by
    rw [show (g.detach k b rest).orphans k = b :: g.orphans k from Function.update_self _ _ _,
      horphans]
  have hdiscarded := hdetached.discard k hk b [] hnow hunused
  obtain ⟨s', hreturn, hsound, honly, hmemory⟩ := mempoolReturnChunk_pool hdiscarded puddleKey hP
    (puddle_not_bypassed hsetup) r (Function.update_self _ _ _)
  have hback : Function.update (Function.update held r (some puddleKey)) r none = held := by
    rw [Function.update_idem, ← hheld, Function.update_eq_self]
  rw [hback] at hsound
  obtain ⟨c, hc⟩ := h.ofFree hfirst
  refine ⟨s', State.free_ok hc, hreturn, hsound,
    ⟨honly.freelist, honly.nrofFree, honly.nrofAllocated, honly.puddlelist⟩, fun x hxr hxb => ?_⟩
  exact (hmemory x hxr).trans (State.freed_other hxb)

/-- A puddle without a chunk in use is given back. It is not one of the puddles of the records,
since each of those has its own record in it. -/
theorem Sweep.release (h : Sweep setup s g held P k p ((r, b) :: todo) kept) (hk : ¬ P k)
    (hsetup : setup poolPuddle = mempoolCreate 10 allowFreeing) (hP : k ≠ puddleKey → P puddleKey)
    {s₂ : State} {q : Option Addr} (hq : Seg some s.puddleNext q (todo.map Prod.fst) none)
    (h₂ : Sound setup s₂ g held P) (hpools : s₂.pools = s.pools)
    (hfull : (freeIn (g.ledger.free k) b 0 (size setup k)).length = size setup k)
    (hsame : ∀ x : Addr, x ≠ r → x.1 ≠ b ∨ x ∉ g.ledger.free k → s₂.memory x = s.memory x) :
    k ≠ puddleKey ∧ ∃ s₄, s₂.free (.chunk (b, 0)) = .ok (s₂.freed b) ∧
      mempoolReturnChunk (s₂.freed b) poolPuddle 0 r = .ok s₄ ∧
      Sweep setup
        (s₄.modifyPool k.1 fun pool =>
          (pool.setNrofFree k.2 (pool.nrofFree k.2-size setup k)).setNrofAllocated k.2
            (pool.nrofAllocated k.2-size setup k))
        (g.release k r b (todo ++ kept)) held P k q todo kept := by
  obtain ⟨hin, hblock, hothers⟩ := h.head
  have hunused := h.sound.unused_of_full hblock hfull
  have hrb : r.1 ≠ b := ne_of_used hunused (h.sound.record k r b hin)
  have hkey : k ≠ puddleKey := by
    intro heq
    rw [heq] at hin
    exact hrb (h.sound.own r b hin).symm
  obtain ⟨s₄, hfreed, hreturn, h₄, honly, hmemory⟩ := h₂.release hk (hP hkey) hsetup h.records
    h.orphans hunused (freeIn_full hfull 0 (size_pos setup k))
  let f : Pool → Pool := fun pool =>
    (pool.setNrofFree k.2 (pool.nrofFree k.2-size setup k)).setNrofAllocated k.2
      (pool.nrofAllocated k.2-size setup k)
  have hf : Agrees k.2 (s₄.pools k.1) (f (s₄.pools k.1)) :=
    (agrees_setNrofFree _ _ _).trans (agrees_setNrofAllocated _ _ _)
  have hold : ∀ x : Addr, x ≠ r → x.1 ≠ b → s₄.memory x = s.memory x := by
    intro x hxr hxb
    rw [hmemory x hxr hxb, hsame x hxr (Or.inl hxb)]
  have hpool₂ : ∀ k', s₂.pools k' = s.pools k' := fun k' => congrFun hpools k'
  have hself : (s₄.modifyPool k.1 f).pools k.1 = f (s₄.pools k.1) := State.modifyPool_self _ _
  have hfree : (g.release k r b (todo ++ kept)).ledger.free k =
      (g.ledger.free k).filter fun a => a.1 ≠ b := by
    refine (Function.update_of_ne hkey _ _).trans ?_
    exact Ledger.discard_free k b
  have hblocks : (g.release k r b (todo ++ kept)).ledger.blocks k =
      (g.ledger.blocks k).erase b := Ledger.discard_blocks k b
  have hrecord : ∀ r' b', (r', b') ∈ todo ++ kept → s₄.memory r' = s.memory r' := by
    intro r' b' hmem
    obtain ⟨hin', _, hr', _⟩ := hothers r' b' hmem
    exact hold r' hr' (ne_of_used hunused (h.sound.record k r' b' hin'))
  have hchunk : ∀ r' b', (r', b') ∈ todo ++ kept → ∀ i, s₄.memory (b', i) = s.memory (b', i) := by
    intro r' b' hmem i
    obtain ⟨_, hblock', _, hb'⟩ := hothers r' b' hmem
    apply hold (b', i) ?_ hb'
    intro heq
    exact h.sound.recordOutside hin hblock' hb' (congrArg Prod.fst heq).symm
  have hstill : ∀ r' b', (r', b') ∈ todo ++ kept → ∀ i,
      ((b', i) ∈ (g.release k r b (todo ++ kept)).ledger.free k ↔ (b', i) ∈ g.ledger.free k) := by
    intro r' b' hmem i
    rw [hfree, List.mem_filter, decide_eq_true_iff]
    exact ⟨And.left, fun hin => ⟨hin, (hothers r' b' hmem).2.2.2⟩⟩
  refine ⟨hkey, s₄, hfreed, hreturn, ?_⟩
  exact {
    sound := h₄.modifyPool k hk f hf
    records := by
      have hrecords : (g.release k r b (todo ++ kept)).records k = todo ++ kept :=
        Function.update_self _ _ _
      rw [hrecords]
    orphans := Function.update_self _ _ _
    ahead := records_congr hq fun r' b' hmem => hrecord r' b' (List.mem_append_left _ hmem)
    behind := by
      have hlist : ((s₄.modifyPool k.1 f).pools k.1).puddlelist k.2 =
          (s.pools k.1).puddlelist k.2 := by
        rw [hself]
        exact (honly.puddlelist k hkey).trans (by rw [hpool₂])
      rw [hlist]
      exact records_congr h.behind fun r' b' hmem => hrecord r' b' (List.mem_append_right _ hmem)
    nrofFree := by
      have hcount : (f (s₄.pools k.1)).nrofFree k.2 = (s₄.pools k.1).nrofFree k.2-size setup k :=
        Function.update_self _ _ _
      have hlength := h.sound.balanced.discard_length k b hblock hunused
      rw [Ledger.discard_free] at hlength
      rw [hself, hcount, honly.nrofFree k hkey, hpool₂, h.nrofFree, hfree, hlength,
        Nat.add_sub_cancel]
    nrofAllocated := by
      have hcount : (f (s₄.pools k.1)).nrofAllocated k.2 =
          (s₄.pools k.1).nrofAllocated k.2-size setup k := Function.update_self _ _ _
      rw [hself, hcount, honly.nrofAllocated k hkey, hpool₂, h.nrofAllocated, hblocks,
        List.length_erase_of_mem hblock, Nat.sub_mul, Nat.one_mul]
    untouched := by
      intro r' b' hmem i hi
      obtain ⟨c, hc, hstatus⟩ := h.untouched r' b' (List.mem_cons_of_mem _ hmem) i hi
      have hmem' := List.mem_append_left kept hmem
      refine ⟨c, (hchunk r' b' hmem' i).trans hc, ?_⟩
      rw [hstill r' b' hmem' i]
      exact hstatus
    listed := by
      intro r' b' hmem
      obtain ⟨c, hc, hnumber, hlist⟩ := h.listed r' b' hmem
      have hmem' := List.mem_append_right todo hmem
      rw [freeIn_congr fun i _ => hstill r' b' hmem' i]
      exact ⟨c, (hrecord r' b' hmem').trans hc, hnumber,
        fun hsmall => (hlist hsmall).congr_block (hchunk r' b' hmem')⟩ }

end Step

end LibAtrinik.Mempool

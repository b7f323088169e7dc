import LibAtrinik.MempoolReclaim

namespace LibAtrinik.Mempool

open IntrusiveList BlockLedger SortLinkedList

variable {setup : ℕ → Pool} {s s' : State} {g g' : Shape} {held : Addr → Option Key}
  {P : Key → Prop} {k : Key} {p : Option Addr} {lastFree : Pointer} {todo : List (Addr × ℕ)}
  {done : List Addr}

/-- The free chunks of a puddle in the order of their list. -/
def puddleFree (setup : ℕ → Pool) (g : Shape) (k : Key) (b : ℕ) : List Addr :=
  (freeIn (g.ledger.free k) b 0 (size setup k)).reverse

theorem mem_puddleFree {b : ℕ} {a : Addr} :
    a ∈ puddleFree setup g k b ↔ a.1 = b ∧ a.2 < size setup k ∧ a ∈ g.ledger.free k := by
  unfold puddleFree
  rw [List.mem_reverse, mem_freeIn]

/-- Where the loop is: the free list holds the chunks of the puddles that it has passed. -/
structure Restoring (setup : ℕ → Pool) (s : State) (g : Shape) (held : Addr → Option Key)
    (P : Key → Prop) (k : Key) (p : Option Addr) (lastFree : Pointer) (todo : List (Addr × ℕ))
    (done : List Addr) : Prop where
  sound : Sound setup s g held P
  ahead : Seg some s.puddleNext p (todo.map Prod.fst) none
  chain : Seg Pointer.chunk s.nextOf ((s.pools k.1).freelist k.2) done .endMarker
  last : ∀ a, done.getLast? = some a → lastFree = .chunk a
  record : ∀ r b, (r, b) ∈ todo → (r, b) ∈ g.records k
  blocks : (todo.map Prod.snd).Nodup
  apart : ∀ r b, (r, b) ∈ todo → ∀ a ∈ done, a.1 ≠ b
  free : ∀ a ∈ done, a ∈ g.ledger.free k
  nodup : done.Nodup
  listed : ∀ r b, (r, b) ∈ todo → ∃ c, s.memory r = some c ∧
    c.data.nrofFree.toNat = (puddleFree setup g k b).length ∧
    Listed s c.data (puddleFree setup g k b)

section Restore

/-- The free list is continued with the list of a puddle. -/
theorem Restoring.link (hk : ¬ P k) {r : Addr} {b : ℕ}
    (h : Restoring setup s g held P k p lastFree ((r, b) :: todo) done) {c : Chunk}
    (hc : s.memory r = some c) (hne : puddleFree setup g k b ≠ []) :
    ∃ s₁, (∀ next : State → Except Fault State,
        (if (s.pools k.1).freelist k.2 = .endMarker then
          Except.ok (s.modifyPool k.1 fun p => p.setFreelist k.2 c.data.firstFree) >>= next
        else lastFree.addr >>= fun last => s.setNext last c.data.firstFree >>= next) = next s₁) ∧
      Sound setup s₁ g held P ∧
      Seg Pointer.chunk s₁.nextOf ((s₁.pools k.1).freelist k.2) done c.data.firstFree ∧
      (s₁.pools k.1).freelist k.2 ≠ .endMarker ∧ OnlyAt k s s₁ ∧
      (s₁.pools k.1).puddlelist k.2 = (s.pools k.1).puddlelist k.2 ∧
      (s₁.pools k.1).nrofFree k.2 = (s.pools k.1).nrofFree k.2 ∧
      (s₁.pools k.1).nrofAllocated k.2 = (s.pools k.1).nrofAllocated k.2 ∧
      (∀ x, x ∉ done → s₁.memory x = s.memory x) ∧ s₁.puddleNext = s.puddleNext := by
  obtain ⟨c', hc', _, hlisted⟩ := h.listed r b List.mem_cons_self
  rw [hc] at hc'
  rw [← Option.some.inj hc'] at hlisted
  have hfirst : c.data.firstFree ≠ .endMarker := by
    intro heq
    have hchain := hlisted.chain
    rw [heq] at hchain
    obtain ⟨a, l, hl⟩ := List.exists_cons_of_ne_nil hne
    rw [hl] at hchain
    cases hchain.1
  by_cases hempty : done = []
  · have hchain := h.chain
    rw [hempty] at hchain
    let f : Pool → Pool := fun p => p.setFreelist k.2 c.data.firstFree
    have hself : (s.modifyPool k.1 f).pools k.1 = f (s.pools k.1) := State.modifyPool_self _ _
    have hlist : (f (s.pools k.1)).freelist k.2 = c.data.firstFree := Function.update_self _ _ _
    refine ⟨s.modifyPool k.1 f, fun _ => if_pos (seg_nil.mp hchain),
      h.sound.modifyPool k hk f (agrees_setFreelist _ _ _), ?_, ?_,
      onlyAt_modifyPool s k f (agrees_setFreelist _ _ _), ?_, ?_, ?_, fun _ _ => rfl, rfl⟩
    · rw [hempty, seg_nil, hself, hlist]
    · rw [hself, hlist]
      exact hfirst
    · rw [hself]
      rfl
    · rw [hself]
      rfl
    · rw [hself]
      rfl
  · obtain ⟨before, w, hsplit⟩ := List.eq_nil_or_concat done |>.resolve_left hempty
    rw [List.concat_eq_append] at hsplit
    have hw : w ∈ done := by
      rw [hsplit]
      exact List.mem_append_right _ List.mem_cons_self
    have hlast : lastFree = .chunk w := by
      apply h.last w
      rw [hsplit, List.getLast?_concat]
    obtain ⟨cw, hcw⟩ := h.sound.ofFree (h.free w hw)
    have hhead : (s.pools k.1).freelist k.2 ≠ .endMarker := by
      intro heq
      have hchain := h.chain
      obtain ⟨a, l, hl⟩ := List.exists_cons_of_ne_nil hempty
      rw [heq, hl] at hchain
      cases hchain.1
    let s₁ := s.store w { cw with next := c.data.firstFree }
    have hnodup := h.nodup
    rw [hsplit, List.nodup_append] at hnodup
    refine ⟨s₁, ?_, h.sound.storeFree hk (h.free w hw) hcw _, ?_, hhead,
      ⟨fun _ _ => rfl, fun _ _ => rfl, fun _ _ => rfl, fun _ _ => rfl⟩, rfl, rfl, rfl, ?_, ?_⟩
    · intro next
      rw [if_neg hhead, hlast]
      change (s.setNext w c.data.firstFree >>= next) = _
      rw [State.setNext_ok _ hcw]
      rfl
    · have hchain := h.chain
      rw [hsplit] at hchain ⊢
      apply hchain.retarget w c.data.firstFree
      · exact State.nextOf_eq (State.store_self _)
      · intro x hx
        exact State.nextOf_congr
          (State.store_other _ (hnodup.2.2 x hx w List.mem_cons_self))
    · intro x hx
      exact State.store_other _ fun hxw => hx (hxw ▸ hw)
    · exact State.puddleNext_setLink hcw _

/-- A puddle without a free chunk is passed over. -/
theorem Restoring.skip {r : Addr} {b : ℕ} {c : Chunk}
    (h : Restoring setup s g held P k p lastFree ((r, b) :: todo) done) (hc : s.memory r = some c) :
    p = some r ∧ Restoring setup s g held P k c.data.next lastFree todo done := by
  have hahead := h.ahead
  rw [List.map_cons] at hahead
  obtain ⟨hp, q, hq, hrest⟩ := hahead
  rw [State.puddleNext_eq hc] at hq
  have hblocks := h.blocks
  rw [List.map_cons, List.nodup_cons] at hblocks
  rw [Option.some.inj hq]
  exact ⟨hp, {
    sound := h.sound
    ahead := hrest
    chain := h.chain
    last := h.last
    record := fun r' b' hmem => h.record r' b' (List.mem_cons_of_mem _ hmem)
    blocks := hblocks.2
    apart := fun r' b' hmem => h.apart r' b' (List.mem_cons_of_mem _ hmem)
    free := h.free
    nodup := h.nodup
    listed := fun r' b' hmem => h.listed r' b' (List.mem_cons_of_mem _ hmem) }⟩

theorem puddleFree_nodup (setup : ℕ → Pool) (g : Shape) (k : Key) (b : ℕ) :
    (puddleFree setup g k b).Nodup := by
  unfold puddleFree
  exact List.nodup_reverse.mpr (freeIn_nodup _ _ _)

/-- The free chunks of a puddle have come behind the free list. The other puddles are as before,
since no record is a free chunk and each free chunk is in one puddle only. -/
theorem Restoring.extend {r : Addr} {b : ℕ} {c : Chunk} {s₂ : State}
    (h : Restoring setup s g held P k p lastFree ((r, b) :: todo) done) (hc : s.memory r = some c)
    (h₂ : Sound setup s₂ g held P)
    (hchain : Seg Pointer.chunk s₂.nextOf ((s₂.pools k.1).freelist k.2)
      (done ++ puddleFree setup g k b) .endMarker)
    (hlast : ∀ a, (done ++ puddleFree setup g k b).getLast? = some a → c.data.lastFree = .chunk a)
    (hnext : s₂.puddleNext = s.puddleNext)
    (hsame : ∀ x, x ∉ done → x ∉ puddleFree setup g k b → s₂.memory x = s.memory x) :
    Restoring setup s₂ g held P k c.data.next c.data.lastFree todo
      (done ++ puddleFree setup g k b) := by
  obtain ⟨_, hskipped⟩ := h.skip hc
  have hblocks := h.blocks
  rw [List.map_cons, List.nodup_cons] at hblocks
  have hother : ∀ r' b', (r', b') ∈ todo → b' ≠ b := by
    intro r' b' hmem heq
    exact hblocks.1 (List.mem_map.mpr ⟨(r', b'), hmem, heq⟩)
  have hrecord : ∀ r' b', (r', b') ∈ todo → s₂.memory r' = s.memory r' := by
    intro r' b' hmem
    have hused := h.sound.record k r' b' (hskipped.record r' b' hmem)
    have hnot := h.sound.balanced.used_not_free hused k
    exact hsame r' (fun hin => hnot (h.free r' hin)) fun hin => hnot (mem_puddleFree.mp hin).2.2
  exact {
    sound := h₂
    ahead := by
      rw [hnext]
      exact hskipped.ahead
    chain := hchain
    last := hlast
    record := hskipped.record
    blocks := hskipped.blocks
    apart := by
      intro r' b' hmem a ha
      rcases List.mem_append.mp ha with hold | hfresh
      · exact hskipped.apart r' b' hmem a hold
      · rw [(mem_puddleFree.mp hfresh).1]
        exact (hother r' b' hmem).symm
    free := by
      intro a ha
      rcases List.mem_append.mp ha with hold | hfresh
      · exact h.free a hold
      · exact (mem_puddleFree.mp hfresh).2.2
    nodup := by
      rw [List.nodup_append]
      refine ⟨h.nodup, puddleFree_nodup setup g k b, ?_⟩
      intro a ha a' ha' heq
      exact h.apart r b List.mem_cons_self a ha (heq ▸ (mem_puddleFree.mp ha').1)
    listed := by
      intro r' b' hmem
      obtain ⟨c', hc', hcount, hlisted⟩ := hskipped.listed r' b' hmem
      refine ⟨c', (hrecord r' b' hmem).trans hc', hcount, hlisted.congr ?_⟩
      intro a ha
      have hab := (mem_puddleFree.mp ha).1
      apply hsame a
      · exact fun hin => hskipped.apart r' b' hmem a hin hab
      · exact fun hin => hother r' b' hmem (hab.symm.trans (mem_puddleFree.mp hin).1) }

/-- The list of a puddle with free chunks is put behind the free list, and ends it. -/
theorem Restoring.append (hk : ¬ P k) {r : Addr} {b : ℕ} {c : Chunk}
    (h : Restoring setup s g held P k p lastFree ((r, b) :: todo) done) (hc : s.memory r = some c)
    (hcount : c.data.nrofFree > 0) (hne : puddleFree setup g k b ≠ []) (fuel : ℕ) :
    ∃ s', restoreFreelist k.1 k.2 (fuel+1) p lastFree s =
        restoreFreelist k.1 k.2 fuel c.data.next c.data.lastFree s' ∧
      Restoring setup s' g held P k c.data.next c.data.lastFree todo
        (done ++ puddleFree setup g k b) ∧
      (s'.pools k.1).puddlelist k.2 = (s.pools k.1).puddlelist k.2 ∧
      (s'.pools k.1).nrofFree k.2 = (s.pools k.1).nrofFree k.2 ∧
      (s'.pools k.1).nrofAllocated k.2 = (s.pools k.1).nrofAllocated k.2 ∧
      s'.puddleNext = s.puddleNext := by
  obtain ⟨hp, _⟩ := h.skip hc
  obtain ⟨c', hc', _, hlisted⟩ := h.listed r b List.mem_cons_self
  obtain rfl := Option.some.inj (hc.symm.trans hc')
  obtain ⟨s₁, hlink, h₁, hdone, hhead, _, hpuddles, hfrees, hallocated, hmemory, hnext⟩ :=
    h.link hk hc hne
  obtain ⟨before, z, hsplit⟩ :=
    List.eq_nil_or_concat (puddleFree setup g k b) |>.resolve_left hne
  rw [List.concat_eq_append] at hsplit
  have hz : z ∈ puddleFree setup g k b := by
    rw [hsplit]
    exact List.mem_append_right _ List.mem_cons_self
  have hlast : c.data.lastFree = .chunk z := by
    apply hlisted.last z
    rw [hsplit, List.getLast?_concat]
  -- the chunks of the puddle are not in the free list yet
  have hnew : ∀ a ∈ puddleFree setup g k b, a ∉ done := by
    intro a ha hdone'
    exact h.apart r b List.mem_cons_self a hdone' (mem_puddleFree.mp ha).1
  have hzfree := (mem_puddleFree.mp hz).2.2
  obtain ⟨cz, hcz⟩ := h₁.ofFree hzfree
  let s₂ := s₁.store z { cz with next := .endMarker }
  have h₂ : Sound setup s₂ g held P := h₁.storeFree hk hzfree hcz .endMarker
  have hsame : ∀ x, x ∉ done → x ≠ z → s₂.memory x = s.memory x := by
    intro x hx hxz
    rw [State.store_other _ hxz, hmemory x hx]
  have hchain₂ : Seg Pointer.chunk s₂.nextOf ((s₂.pools k.1).freelist k.2)
      (done ++ puddleFree setup g k b) .endMarker := by
    apply seg_append.mpr
    refine ⟨c.data.firstFree, ?_, ?_⟩
    · apply hdone.congr
      intro x hx
      exact State.nextOf_congr (State.store_other _ fun hxz => hnew z hz (hxz ▸ hx))
    · have hpart := hlisted.chain
      have hnodup := puddleFree_nodup setup g k b
      rw [hsplit] at hpart hnodup ⊢
      rw [List.nodup_append] at hnodup
      apply hpart.retarget z .endMarker
      · exact State.nextOf_eq (State.store_self _)
      · intro x hx
        have hxl : x ∈ puddleFree setup g k b := by
          rw [hsplit]
          exact List.mem_append_left _ hx
        exact State.nextOf_congr
          (hsame x (hnew x hxl) (hnodup.2.2 x hx z List.mem_cons_self))
  have hnext₂ : s₂.puddleNext = s.puddleNext := (State.puddleNext_setLink hcz _).trans hnext
  have hends : ∀ a, (done ++ puddleFree setup g k b).getLast? = some a →
      c.data.lastFree = .chunk a := by
    intro a ha
    rw [hsplit, ← List.append_assoc, List.getLast?_concat] at ha
    rw [hlast, Option.some.inj ha]
  -- the record of the puddle is in use, so that it is none of the free chunks
  have hc₂ : s₂.memory r = some c := by
    have hused := h.sound.record k r b (h.record r b List.mem_cons_self)
    have hnot := h.sound.balanced.used_not_free hused k
    exact (hsame r (fun hin => hnot (h.free r hin)) fun heq => hnot (heq ▸ hzfree)).trans hc
  refine ⟨s₂, ?_, h.extend hc h₂ hchain₂ hends hnext₂ fun x hx hnot => hsame x hx fun heq =>
    hnot (heq ▸ hz), hpuddles, hfrees, hallocated, hnext₂⟩
  rw [hp, restoreFreelist, State.load_ok hc]
  change (if c.data.nrofFree > 0 then _ else _ : Except Fault State) = _
  rw [if_pos hcount]
  refine (hlink fun s => c.data.lastFree.addr >>= fun last =>
    s.setNext last .endMarker >>= fun s => s.load r >>= fun c' =>
      restoreFreelist k.1 k.2 fuel c'.data.next c.data.lastFree s).trans ?_
  rw [hlast]
  change (s₁.setNext z .endMarker >>= fun s => _) = _
  rw [State.setNext_ok _ hcz]
  change (s₂.load r >>= fun c' => _) = _
  rw [State.load_ok hc₂, ← hlast]
  rfl

/-- The lists of the puddles that are left are put behind the free list. -/
theorem restoreFreelist_spec (hk : ¬ P k) (fuel : ℕ) (hfuel : todo.length ≤ fuel)
    (h : Restoring setup s g held P k p lastFree todo done) :
    ∃ s', restoreFreelist k.1 k.2 fuel p lastFree s = .ok s' ∧ Sound setup s' g held P ∧
      Seg Pointer.chunk s'.nextOf ((s'.pools k.1).freelist k.2)
        (done ++ todo.flatMap fun record => puddleFree setup g k record.2) .endMarker ∧
      (s'.pools k.1).puddlelist k.2 = (s.pools k.1).puddlelist k.2 ∧
      (s'.pools k.1).nrofFree k.2 = (s.pools k.1).nrofFree k.2 ∧
      (s'.pools k.1).nrofAllocated k.2 = (s.pools k.1).nrofAllocated k.2 ∧
      s'.puddleNext = s.puddleNext := by
  induction todo generalizing s p lastFree done fuel with
  | nil =>
    have hp : p = none := h.ahead
    refine ⟨s, ?_, h.sound, ?_, rfl, rfl, rfl, rfl⟩
    · rw [hp]
      cases fuel <;> rw [restoreFreelist]
    · rw [List.flatMap_nil, List.append_nil]
      exact h.chain
  | cons head todo ih =>
    obtain ⟨r, b⟩ := head
    cases fuel with
    | zero =>
      rw [List.length_cons] at hfuel
      omega
    | succ fuel =>
      obtain ⟨c, hc, hcount, _⟩ := h.listed r b List.mem_cons_self
      have hpositive : c.data.nrofFree > 0 ↔ puddleFree setup g k b ≠ [] := by
        rw [← List.length_pos_iff, ← hcount]
        exact UInt32.lt_iff_toNat_lt
      have hfuel' : todo.length ≤ fuel := by
        rw [List.length_cons] at hfuel
        omega
      by_cases hempty : puddleFree setup g k b = []
      · obtain ⟨hp, hskipped⟩ := h.skip hc
        obtain ⟨s', hrun, hresult⟩ := ih fuel hfuel' hskipped
        refine ⟨s', ?_, ?_⟩
        · rw [hp, restoreFreelist, State.load_ok hc]
          change (if c.data.nrofFree > 0 then _ else _ : Except Fault State) = _
          rw [if_neg fun hpos => hpositive.mp hpos hempty]
          exact hrun
        · rw [List.flatMap_cons, hempty, List.nil_append]
          exact hresult
      · obtain ⟨s₂, hstep, h₂, hpuddles, hfrees, hallocated, hnext⟩ :=
          h.append hk hc (hpositive.mpr hempty) hempty fuel
        obtain ⟨s', hrun, hsound, hchain, hpuddles', hfrees', hallocated', hnext'⟩ :=
          ih fuel hfuel' h₂
        refine ⟨s', hstep.trans hrun, hsound, ?_, hpuddles'.trans hpuddles, hfrees'.trans hfrees,
          hallocated'.trans hallocated, hnext'.trans hnext⟩
        rw [List.flatMap_cons, ← List.append_assoc]
        exact hchain

end Restore

section Exponent

/-- What is needed for a reclaim of a key: that the code agrees with itself about the number of
chunks in a puddle, that no counter wraps, and that the walks are long enough. -/
structure Ready (setup : ℕ → Pool) (g : Shape) (fuel : ℕ) (k : Key) : Prop where
  arrays : (setup k.1).arrays k.2 ≠ 0 ∨ g.records k = []
  small : ∀ r b, (r, b) ∈ g.records k →
    (freeIn (g.ledger.free k) b 0 (size setup k)).length < 2^32
  fuel : (g.records k).length ≤ fuel

/-- A link of a list leads to another node or to the end. -/
theorem seg_links {α π : Type} {ptr : α → π} {next : α → Option π} {q q' : π} {l : List α}
    (h : Seg ptr next q l q') : ∀ a ∈ l, ∃ r, next a = some r ∧ (r = q' ∨ ∃ b, r = ptr b) := by
  induction l generalizing q with
  | nil =>
    intro a ha
    exact absurd ha List.not_mem_nil
  | cons b l ih =>
    obtain ⟨_, r, hr, hrest⟩ := h
    intro a ha
    rcases List.mem_cons.mp ha with heq | hin
    · refine ⟨r, heq ▸ hr, ?_⟩
      cases l with
      | nil => exact Or.inl hrest
      | cons c l => exact Or.inr ⟨c, hrest.1⟩
    · exact ih hrest a hin

/-- A chunk of a settled key has a link if and only if it is free. -/
theorem Sound.next_null_iff (h : Sound setup s g held P) (hk : P k) {a : Addr} {c : Chunk}
    (hb : a.1 ∈ g.ledger.blocks k) (hi : a.2 < size setup k) (hc : s.memory a = some c) :
    c.next = .null ↔ a ∉ g.ledger.free k := by
  constructor
  · intro hnull hfree
    obtain ⟨r, hr, hcases⟩ := seg_links (h.settled k hk).freelist a hfree
    rw [State.nextOf_eq hc, hnull] at hr
    rcases hcases with hend | ⟨b, hchunk⟩
    · rw [hend] at hr
      cases hr
    · rw [hchunk] at hr
      cases hr
  · intro hfree
    rcases (h.balanced.cell k a).mp ⟨hb, hi⟩ with hin | hused
    · exact absurd hin hfree
    · exact h.inUse a k c hused hc

/-- The free lists of the puddles have all free chunks. -/
theorem flatMap_puddleFree_perm (h : Sound setup s g held P) {kept : List (Addr × ℕ)}
    (hperm : (g.records k).Perm kept) (horphans : g.orphans k = []) :
    (kept.flatMap fun record => puddleFree setup g k record.2).Perm (g.ledger.free k) := by
  have hblocks := (hperm.symm.map Prod.snd).trans (h.puddleBlocks horphans)
  have hnodup := hblocks.nodup_iff.mpr (h.balanced.blocks_nodup k)
  apply (List.perm_ext_iff_of_nodup ?_ (h.balanced.free_nodup k)).mpr
  · intro a
    rw [List.mem_flatMap]
    constructor
    · intro ha
      obtain ⟨record, _, ha⟩ := ha
      exact (mem_puddleFree.mp ha).2.2
    · intro ha
      obtain ⟨hb, hi⟩ := h.balanced.of_free ha
      obtain ⟨record, hmem, hsnd⟩ := List.mem_map.mp (hblocks.mem_iff.mpr hb)
      exact ⟨record, hmem, mem_puddleFree.mpr ⟨hsnd.symm, hi, ha⟩⟩
  · apply List.nodup_flatMap.mpr
    constructor
    · intro record _
      unfold puddleFree
      exact List.nodup_reverse.mpr (freeIn_nodup _ _ _)
    · apply (List.pairwise_map.mp hnodup).imp
      intro record record' hne a ha ha'
      exact hne ((mem_puddleFree.mp ha).1.symm.trans (mem_puddleFree.mp ha').1)

theorem freePuddles_none (pool : ℕ) (e : Exponent) (n fuel freed : ℕ) (s : State) :
    freePuddles pool e n fuel none s freed = .ok (s, freed) := by
  cases fuel <;> rw [freePuddles]

/-- The sweep begins with all puddles of the key. -/
theorem Sound.sweepStart (h : Sound setup s g held fun _ => True) (k : Key)
    (horphans : g.orphans k = []) :
    Sweep setup (s.modifyPool k.1 fun p => p.setPuddlelist k.2 none) g held
      (fun k' => True ∧ k' ≠ k) k ((s.pools k.1).puddlelist k.2) (g.records k) [] := by
  have hset := h.settled k trivial
  have hk : ¬ (True ∧ k ≠ k) := fun hand => hand.2 rfl
  let f₀ : Pool → Pool := fun p => p.setPuddlelist k.2 none
  have hpool₀ : (s.modifyPool k.1 f₀).pools k.1 = f₀ (s.pools k.1) := State.modifyPool_self _ _
  exact {
    sound := (h.except k).modifyPool k hk f₀ (agrees_setPuddlelist _ _ _)
    records := by rw [List.append_nil]
    orphans := horphans
    ahead := hset.puddlelist
    behind := by
      rw [hpool₀]
      exact Function.update_self _ _ _
    nrofFree := by
      rw [hpool₀]
      exact hset.nrofFree
    nrofAllocated := by
      rw [hpool₀]
      exact hset.nrofAllocated
    untouched := by
      intro r b hmem i hi
      have hb : b ∈ g.ledger.blocks k :=
        (h.puddleBlocks horphans).mem_iff.mp (List.mem_map_of_mem hmem)
      obtain ⟨c, hc⟩ := (h.domain (b, i)).mpr ⟨k, hb, hi⟩
      exact ⟨c, hc, h.next_null_iff trivial hb hi hc⟩
    listed := fun r b hmem => absurd hmem List.not_mem_nil }

/-- The puddles of a key have been swept and sorted, and its free list is still to be restored. -/
structure Sorted (setup : ℕ → Pool) (s : State) (g g' : Shape) (held : Addr → Option Key)
    (P : Key → Prop) (k : Key) (first : Option Addr) (kept : List (Addr × ℕ)) : Prop where
  sound : Sound setup s g' held P
  aside : Aside g g' k
  orphans : g'.orphans k = []
  same : (k = puddleKey ∨ ∀ r b, (r, b) ∈ g.records k → counted setup g k b ≠ size setup k) → g' = g
  records : (g'.records k).Perm kept
  from_records : ∀ r b, (r, b) ∈ kept → (r, b) ∈ g.records k ∧
    freeIn (g'.ledger.free k) b 0 (size setup k) = freeIn (g.ledger.free k) b 0 (size setup k)
  length : kept.length ≤ (g.records k).length
  ahead : Seg some s.puddleNext first (kept.map Prod.fst) none
  puddlelist : (s.pools k.1).puddlelist k.2 = first
  freelist : (s.pools k.1).freelist k.2 = .endMarker
  nrofFree : (s.pools k.1).nrofFree k.2 = (g'.ledger.free k).length
  nrofAllocated : (s.pools k.1).nrofAllocated k.2 = (g'.ledger.blocks k).length*size setup k
  listed : ∀ r b, (r, b) ∈ kept → ∃ c, s.memory r = some c ∧
    c.data.nrofFree = UInt32.ofNat (freeIn (g'.ledger.free k) b 0 (size setup k)).length ∧
    ((freeIn (g'.ledger.free k) b 0 (size setup k)).length < 2^32 →
      Listed s c.data (freeIn (g'.ledger.free k) b 0 (size setup k)).reverse)

/-- The reclaim of a key up to the loop that restores the free list. -/
theorem freeExponent_sorted (h : Sound setup s g held fun _ => True)
    (hsetup : setup poolPuddle = mempoolCreate 10 allowFreeing) (k : Key)
    (horphans : g.orphans k = []) (stack : Fin 4 → Tape (Option Addr)) (fuel freed : ℕ)
    (harrays : (s.pools k.1).arrays k.2 = size setup k ∨ g.records k = [])
    (hexact : ∀ r b, (r, b) ∈ g.records k → counted setup g k b = size setup k →
      (freeIn (g.ledger.free k) b 0 (size setup k)).length = size setup k)
    (hfuel : (g.records k).length ≤ fuel) :
    ∃ s' g' freed' first kept, freeExponent stack fuel k.1 (s, freed) k.2 =
        (restoreFreelist k.1 k.2 fuel first .endMarker s' >>= fun s => .ok (s, freed')) ∧
      Sorted setup s' g g' held (fun k' => True ∧ k' ≠ k) k first kept := by
  have hset := h.settled k trivial
  have hk : ¬ (True ∧ k ≠ k) := fun hand => hand.2 rfl
  have hP : k ≠ puddleKey → (True ∧ puddleKey ≠ k) := fun hne => ⟨trivial, hne.symm⟩
  let s₀ := s.modifyPool k.1 fun p => p.setPuddlelist k.2 none
  obtain ⟨s₁, g₁, freed₁, kept₁, hloop, hswept, haside, hsameShape, hkept, hlength⟩ :=
    freePuddles_spec hsetup hk hP fuel freed hfuel (h.sweepStart k horphans) hexact
  -- when the size of the array does not agree with the puddles, there is none
  have hrun : freePuddles k.1 k.2 ((s.pools k.1).arrays k.2) fuel ((s.pools k.1).puddlelist k.2) s₀
      freed = .ok (s₁, freed₁) := by
    rcases harrays with hsize | hnil
    · rw [hsize]
      exact hloop
    · have hnone : (s.pools k.1).puddlelist k.2 = none := by
        have hchain := hset.puddlelist
        rw [hnil] at hchain
        exact hchain
      rw [hnone, freePuddles_none] at hloop ⊢
      exact hloop
  rw [List.length_nil, Nat.add_zero] at hlength
  obtain ⟨first, s₂, kept₂, hsort, hperm₂, hchain₂, h₂, hpools₂, hmemory₂⟩ :=
    sortPuddles_spec hk hswept stack fuel (Nat.le_trans hlength hfuel)
  let s₃ := (s₂.modifyPool k.1 fun p => p.setPuddlelist k.2 first).modifyPool k.1 fun p =>
    p.setFreelist k.2 .endMarker
  have hpool₃ : s₃.pools k.1 =
      ((s₁.pools k.1).setPuddlelist k.2 first).setFreelist k.2 .endMarker := by
    change ((s₂.modifyPool k.1 fun p => p.setPuddlelist k.2 first).modifyPool k.1 _).pools k.1 = _
    rw [State.modifyPool_self, State.modifyPool_self, hpools₂]
  have hfirst : (s₃.pools k.1).puddlelist k.2 = first := by
    rw [hpool₃]
    exact Function.update_self _ _ _
  -- the sort changes the links of the records, not those of the free chunks
  have hnext₂ : ∀ a, s₂.nextOf a = s₁.nextOf a := by
    intro a
    cases hc : s₁.memory a with
    | some c =>
      obtain ⟨link, hc₂⟩ := hmemory₂ a c hc
      rw [State.nextOf_eq hc, State.nextOf_eq hc₂]
    | none =>
      have hnone : s₂.memory a = none := by
        cases hc₂ : s₂.memory a with
        | none => rfl
        | some c₂ =>
          obtain ⟨c, hc'⟩ := (hswept.sound.domain a).mpr ((h₂.domain a).mp ⟨c₂, hc₂⟩)
          rw [hc] at hc'
          cases hc'
      exact State.nextOf_congr (hnone.trans hc.symm)
  refine ⟨s₃, g₁, freed₁, first, kept₂, ?_, ?_⟩
  · unfold freeExponent
    change (freePuddles k.1 k.2 ((s.pools k.1).arrays k.2) fuel ((s.pools k.1).puddlelist k.2) s₀
      freed >>= fun result => _) = _
    rw [hrun]
    change (sortPuddles stack fuel ((s₁.pools k.1).puddlelist k.2) s₁ >>= fun result => _) = _
    rw [hsort]
    change (restoreFreelist k.1 k.2 fuel ((s₃.pools k.1).puddlelist k.2) .endMarker s₃ >>=
      fun s => _) = _
    rw [hfirst]
    rfl
  · exact {
      sound := by
        apply Sound.modifyPool ?_ k hk _ (agrees_setFreelist _ _ _)
        exact h₂.modifyPool k hk _ (agrees_setPuddlelist _ _ _)
      aside := haside
      orphans := hswept.orphans
      same := hsameShape
      records := by
        have hrecords := hswept.records
        rw [List.nil_append] at hrecords
        exact hrecords.trans hperm₂.symm
      from_records := by
        intro r b hmem
        obtain ⟨hfrom, hsame⟩ := hkept r b (hperm₂.mem_iff.mp hmem)
        exact ⟨hfrom.resolve_right List.not_mem_nil, hsame⟩
      length := by
        rw [hperm₂.length_eq]
        exact hlength
      ahead := hchain₂
      puddlelist := hfirst
      freelist := by
        rw [hpool₃]
        exact Function.update_self _ _ _
      nrofFree := by
        rw [hpool₃]
        exact hswept.nrofFree
      nrofAllocated := by
        rw [hpool₃]
        exact hswept.nrofAllocated
      listed := by
        intro r b hmem
        obtain ⟨c, hc, hnumber, hlisted⟩ := hswept.listed r b (hperm₂.mem_iff.mp hmem)
        obtain ⟨link, hc₂⟩ := hmemory₂ r c hc
        refine ⟨_, hc₂, hnumber, fun hsmall => ⟨?_, (hlisted hsmall).last⟩⟩
        exact (hlisted hsmall).chain.congr fun a _ => hnext₂ a }

/-- The reclaim of a key. -/
theorem freeExponent_spec (h : Sound setup s g held fun _ => True)
    (hsetup : setup poolPuddle = mempoolCreate 10 allowFreeing) (k : Key)
    (hbypass : (setup k.1).bypasses = false) (horphans : g.orphans k = [])
    (stack : Fin 4 → Tape (Option Addr)) (fuel freed : ℕ) (hready : Ready setup g fuel k) :
    ∃ s' g' freed', freeExponent stack fuel k.1 (s, freed) k.2 = .ok (s', freed') ∧
      Sound setup s' g' held (fun _ => True) ∧ Aside g g' k ∧ g'.orphans k = [] ∧
      (∀ record ∈ g'.records k, record ∈ g.records k) ∧
      (k = puddleKey → g'.ledger.blocks = g.ledger.blocks) := by
  have hk : ¬ (True ∧ k ≠ k) := fun hand => hand.2 rfl
  have harrays : (s.pools k.1).arrays k.2 = size setup k ∨ g.records k = [] := by
    apply hready.arrays.imp_left
    intro hne
    unfold size Pool.chunks
    rw [h.arrays, hbypass, if_neg Bool.false_ne_true, if_neg hne]
  obtain ⟨s₃, g₁, freed₁, first, kept, hrun, hsorted⟩ :=
    freeExponent_sorted h hsetup k horphans stack fuel freed harrays (fun r b hmem heq =>
      (counted_of_small (hready.small r b hmem)).symm.trans heq) hready.fuel
  have hrestoring : Restoring setup s₃ g₁ held (fun k' => True ∧ k' ≠ k) k first .endMarker kept
      [] := {
    sound := hsorted.sound
    ahead := hsorted.ahead
    chain := hsorted.freelist
    last := by
      intro a ha
      cases ha
    record := fun r b hmem => hsorted.records.mem_iff.mpr hmem
    blocks := by
      apply ((hsorted.records.symm.map Prod.snd).trans
        (hsorted.sound.puddleBlocks hsorted.orphans)).nodup_iff.mpr
      exact hsorted.sound.balanced.blocks_nodup k
    apart := fun _ _ _ a ha => absurd ha List.not_mem_nil
    free := fun a ha => absurd ha List.not_mem_nil
    nodup := List.nodup_nil
    listed := by
      intro r b hmem
      obtain ⟨c, hc, hnumber, hlisted⟩ := hsorted.listed r b hmem
      obtain ⟨hrecord, hsame⟩ := hsorted.from_records r b hmem
      have hsmall := hready.small r b hrecord
      rw [← hsame] at hsmall
      refine ⟨c, hc, ?_, hlisted hsmall⟩
      unfold puddleFree
      rw [List.length_reverse, hnumber, UInt32.toNat_ofNat_of_lt' hsmall] }
  obtain ⟨s₄, hrestore, h₄, hchain₄, hpuddles₄, hfrees₄, hallocated₄, hnext₄⟩ :=
    restoreFreelist_spec hk fuel (Nat.le_trans hsorted.length hready.fuel) hrestoring
  rw [List.nil_append] at hchain₄
  let free' := kept.flatMap fun record => puddleFree setup g₁ k record.2
  have hfree : free'.Perm (g₁.ledger.free k) :=
    flatMap_puddleFree_perm hsorted.sound hsorted.records hsorted.orphans
  let g₂ := (g₁.setFree k free').setRecords k kept
  have h₅ : Sound setup s₄ g₂ held fun k' => True ∧ k' ≠ k :=
    (h₄.reorder k hk free' hfree).reorderRecords k hk kept hsorted.records.symm
  have hself : g₂.ledger.free k = free' := Function.update_self _ _ _
  have hrecords : g₂.records k = kept := Function.update_self _ _ _
  refine ⟨s₄, g₂, freed₁, ?_, h₅.resettle ⟨?_, ?_, ?_, ?_⟩, ?_, hsorted.orphans, ?_, ?_⟩
  · rw [hrun, hrestore]
    rfl
  · rw [hself]
    exact hchain₄
  · rw [hpuddles₄, hsorted.puddlelist, hrecords, hnext₄]
    exact hsorted.ahead
  · rw [hself, hfree.length_eq, hfrees₄]
    exact hsorted.nrofFree
  · rw [hallocated₄]
    exact hsorted.nrofAllocated
  · refine hsorted.aside.trans ⟨?_, ?_, fun _ _ => rfl⟩
    · intro k' hk' _
      exact ⟨Function.update_of_ne hk' _ _, Function.update_of_ne hk' _ _, rfl⟩
    · intro k' hk'
      exact Function.update_of_ne hk' _ _
  · intro record hmem
    rw [hrecords] at hmem
    exact (hsorted.from_records record.1 record.2 hmem).1
  · intro heq
    have hblocks : g₂.ledger.blocks = g₁.ledger.blocks := rfl
    rw [hblocks, hsorted.same (Or.inl heq)]

end Exponent

end LibAtrinik.Mempool

import LibAtrinik.MempoolCalls

namespace LibAtrinik.Mempool

open IntrusiveList BlockLedger

variable {setup : ℕ → Pool} {s : State} {g : Shape} {held : Addr → Option Key} {P : Key → Prop}

/-- The new chunks are linked in the order of their places. -/
theorem linkChunks_spec (b : ℕ) (k : Key) (hk : ¬ P k) (n i : ℕ) (h : Sound setup s g held P)
    (hfree : ∀ j, i ≤ j → j ≤ i+n → (b, j) ∈ g.ledger.free k) :
    ∃ s', linkChunks (n+1) (b, i) s = .ok s' ∧ Sound setup s' g held P ∧ s'.pools = s.pools ∧
      Seg Pointer.chunk s'.nextOf (.chunk (b, i)) ((List.range' i (n+1)).map (Prod.mk b))
        .endMarker ∧
      (∀ a : Addr, a.1 ≠ b ∨ a.2 < i → s'.memory a = s.memory a) := by
  have hin := hfree i (Nat.le_refl i) (Nat.le_add_right i n)
  obtain ⟨c, hc⟩ := h.ofFree hin
  have hstored : ∀ next : Pointer, Sound setup (s.store (b, i) { c with next := next }) g held P := by
    intro next
    apply h.store (b, i) c _ hc
    · exact Or.inr ⟨k, hin, hk⟩
    · intro _ _ _
      rfl
    · intro _ _ _ _
      rfl
  induction n generalizing i s c with
  | zero =>
    refine ⟨_, State.setNext_ok .endMarker hc, hstored .endMarker, rfl, ?_, ?_⟩
    · exact ⟨rfl, .endMarker, State.nextOf_eq (State.store_self _), rfl⟩
    · intro a ha
      apply State.store_other
      intro heq
      rw [heq] at ha
      exact ha.elim (fun hne => hne rfl) (Nat.lt_irrefl i)
  | succ n ih =>
    let s₁ := s.store (b, i) { c with next := .chunk (b, i+1) }
    have h₁ := hstored (.chunk (b, i+1))
    have hin₁ := hfree (i+1) (Nat.le_succ i) (by omega)
    obtain ⟨c₁, hc₁⟩ := h₁.ofFree hin₁
    obtain ⟨s', hrun, hsound, hpools, hchain, hsame⟩ := ih (i+1) h₁
      (fun j hij hj => hfree j (by omega) (by omega)) hin₁ c₁ hc₁ (by
        intro next
        apply h₁.store (b, i+1) c₁ _ hc₁
        · exact Or.inr ⟨k, hin₁, hk⟩
        · intro _ _ _
          rfl
        · intro _ _ _ _
          rfl)
    refine ⟨s', ?_, hsound, hpools, ?_, ?_⟩
    · change (s.setNext (b, i) (.chunk (b, i+1)) >>= fun s => linkChunks (n+1) (b, i+1) s) = _
      rw [State.setNext_ok _ hc]
      exact hrun
    · rw [List.range'_succ, List.map_cons]
      refine ⟨rfl, .chunk (b, i+1), ?_, hchain⟩
      exact State.nextOf_eq ((hsame (b, i) (Or.inr (Nat.lt_succ_self i))).trans
        (State.store_self _))
    · intro a ha
      have hne : a ≠ (b, i) := by
        intro heq
        rw [heq] at ha
        exact ha.elim (fun hne => hne rfl) (Nat.lt_irrefl i)
      rw [hsame a (ha.imp_right fun hlt => Nat.lt_succ_of_lt hlt), State.store_other _ hne]

/-- The pool as it is when `mempool_expand` asks for the record of the new puddle. -/
theorem mempoolExpand_alloc (h : Sound setup s g held P) (k : Key) (hk : P k)
    (hbypass : (setup k.1).bypasses = false) (hempty : g.ledger.free k = []) (b : ℕ)
    (hfresh : Fresh s b) :
    ∃ s₁, Sound setup s₁ (g.addBlock setup k b) held P ∧
      (∀ a : Addr, a.1 ≠ b → s₁.memory a = s.memory a) ∧
      ∀ getPuddle, mempoolExpand getPuddle b s k.1 k.2 =
        (getPuddle s₁ >>= fun result => do
          let s ← result.2.modifyPuddle result.1 fun puddle =>
            { puddle with
              firstChunk := .chunk (b, 0)
              next := (result.2.pools k.1).puddlelist k.2 }
          return s.modifyPool k.1 fun pool => pool.setPuddlelist k.2 (some result.1)) := by
  have hset := h.settled k hk
  have hk' : ¬ (P k ∧ k ≠ k) := fun hand => hand.2 rfl
  have hsize : (if (s.pools k.1).arrays k.2 = 0 then 1 else (s.pools k.1).arrays k.2) =
      size setup k := by
    unfold size Pool.chunks
    rw [h.arrays, hbypass]
    rfl
  obtain ⟨n, hn⟩ := Nat.exists_eq_succ_of_ne_zero (Nat.ne_of_gt (size_pos setup k))
  let f : Pool → Pool := fun p =>
    ((p.setFreelist k.2 (.chunk (b, 0))).setNrofAllocated k.2
      (p.nrofAllocated k.2+size setup k)).setNrofFree k.2 (size setup k)
  let s₁ := (s.xcalloc b (size setup k)).modifyPool k.1 f
  have hf : Agrees k.2 (s.pools k.1) (f (s.pools k.1)) :=
    ((agrees_setFreelist _ _ _).trans (agrees_setNrofAllocated _ _ _)).trans
      (agrees_setNrofFree _ _ _)
  have h₁ : Sound setup s₁ (g.addBlock setup k b) held fun k' => P k' ∧ k' ≠ k :=
    ((h.except k).addBlock k hk' b hfresh).modifyPool k hk' f hf
  have hfree : (g.addBlock setup k b).ledger.free k = cells (size setup k) b := by
    change (g.ledger.addBlock (size setup) k b).free k = _
    rw [Ledger.addBlock_free, hempty, List.append_nil]
  obtain ⟨s₂, hlink, hsound, hpools, hchain, hsame⟩ := linkChunks_spec b k hk' n 0 h₁ (by
    intro j _ hj
    rw [hfree, mem_cells]
    refine ⟨rfl, ?_⟩
    change j < size setup k
    omega)
  have hold : ∀ a : Addr, a.1 ≠ b → s₂.memory a = s.memory a := by
    intro a hab
    exact (hsame a (Or.inl hab)).trans (State.xcalloc_old hab)
  have hpool : s₂.pools k.1 = f (s.pools k.1) := by
    rw [hpools]
    exact State.modifyPool_self (s := s.xcalloc b (size setup k)) k.1 f
  refine ⟨s₂, hsound.resettle ⟨?_, ?_, ?_, ?_⟩, hold, ?_⟩
  · have hhead : (f (s.pools k.1)).freelist k.2 = .chunk (b, 0) := Function.update_self _ _ _
    rw [hpool, hfree, hhead]
    unfold cells
    rw [List.range_eq_range', hn]
    exact hchain
  · rw [hpool]
    apply records_congr hset.puddlelist
    intro r b' hmem
    exact hold r (h.notFresh hfresh (Or.inr (h.record k r b' hmem)))
  · have hcount : (f (s.pools k.1)).nrofFree k.2 = size setup k := Function.update_self _ _ _
    rw [hpool, hfree, cells_length, hcount]
  · have hblocks : (g.addBlock setup k b).ledger.blocks k = b :: g.ledger.blocks k :=
      Function.update_self _ _ _
    rw [hpool, hblocks, List.length_cons, Nat.succ_mul, ← hset.nrofAllocated]
    exact Function.update_self _ _ _
  · intro getPuddle
    have hzero : (s.pools k.1).nrofFree k.2 = 0 := by rw [hset.nrofFree, hempty]; rfl
    unfold mempoolExpand
    rw [if_neg (not_not_intro hzero)]
    dsimp only
    rw [hsize]
    change (linkChunks (size setup k) (b, 0) s₁ >>= fun s => _) = _
    rw [hn, hlink]
    rfl

/-- The record is attached to the new puddle. -/
theorem mempoolExpand_attach (h : Sound setup s g held P) (k : Key) (hk : P k)
    (hbypass : (setup k.1).bypasses = false) (b : ℕ) (orphans : List ℕ)
    (horphans : g.orphans k = b :: orphans) (p : Addr) (hp : held p = some puddleKey)
    (hown : k = puddleKey → b = p.1) :
    ∃ s', (do
        let s₁ ← s.modifyPuddle p fun puddle =>
          { puddle with firstChunk := .chunk (b, 0), next := (s.pools k.1).puddlelist k.2 }
        return s₁.modifyPool k.1 fun pool => pool.setPuddlelist k.2 (some p)) = Except.ok s' ∧
      Sound setup s' (g.attach k p b orphans) (Function.update held p none) P := by
  obtain ⟨hused, hrecord⟩ := (h.heldBy p puddleKey).mp hp
  obtain ⟨c, hc, hnull⟩ := h.ofUsed hused
  have hset := h.settled k hk
  have hk' : ¬ (P k ∧ k ≠ k) := fun hand => hand.2 rfl
  let c' : Chunk := { c with
    data := { c.data with firstChunk := .chunk (b, 0), next := (s.pools k.1).puddlelist k.2 } }
  let f : Pool → Pool := fun pool => pool.setPuddlelist k.2 (some p)
  let s₁ := s.store p c'
  let s₂ := s₁.modifyPool k.1 f
  have hstored : s₂.memory p = some c' := State.store_self c'
  have h₂ : Sound setup s₂ g held fun k' => P k' ∧ k' ≠ k := by
    apply Sound.modifyPool ?_ k hk' f (agrees_setPuddlelist _ _ _)
    apply (h.except k).store p c _ hc
    · exact Or.inl rfl
    · intro k' b' hmem
      exact absurd hmem (hrecord k' b')
    · intro k' b' hmem
      exact absurd hmem (hrecord k' b')
  have h₃ := h₂.attach k hk' p b orphans horphans hp hbypass hown ⟨c', hstored, rfl⟩
  have hpool : s₂.pools k.1 = f (s.pools k.1) := State.modifyPool_self (s := s₁) k.1 f
  refine ⟨s₂, ?_, h₃.resettle ⟨?_, ?_, ?_, ?_⟩⟩
  · rw [State.modifyPuddle_ok _ hc]
    rfl
  · rw [hpool]
    apply hset.freelist.congr
    intro a ha
    have hap : a ≠ p := fun hap => h.balanced.used_not_free hused k (hap ▸ ha)
    exact State.nextOf_congr (State.store_other c' hap)
  · have hhead : (f (s.pools k.1)).puddlelist k.2 = some p := Function.update_self _ _ _
    have hrecords : (g.attach k p b orphans).records k = (p, b) :: g.records k :=
      Function.update_self _ _ _
    rw [hpool, hhead, hrecords, List.map_cons]
    apply hset.puddlelist.push p
    · intro hin
      obtain ⟨record, hmem, hr⟩ := List.mem_map.mp hin
      exact hrecord k record.2 (hr ▸ hmem)
    · exact State.puddleNext_eq hstored
    · intro a hap
      exact State.puddleNext_congr (State.store_other c' hap)
  · rw [hpool]
    exact hset.nrofFree
  · rw [hpool]
    exact hset.nrofAllocated

section Get

variable (hsetup : setup poolPuddle = mempoolCreate 10 allowFreeing)
include hsetup

theorem puddle_not_bypassed : (setup puddleKey.1).bypasses = false := by
  change (setup poolPuddle).bypasses = false
  rw [hsetup]
  rfl

theorem size_puddleKey : size setup puddleKey = 10 := by
  unfold size
  change (setup poolPuddle).chunks 0 = 10
  rw [hsetup]
  rfl

/-- A record is got from the pool of the records, which has to be expanded. The record of the new
puddle is its own first chunk. -/
theorem mempoolGet_puddle_expand (h : Sound setup s g held P) (hk : P puddleKey)
    (hfree : g.ledger.free puddleKey = []) (b : ℕ) (blocks : List ℕ) (hfresh : Fresh s b) :
    ∃ s' g', mempoolGetChunk (b :: blocks) s poolPuddle 0 = .ok ((b, 1), s') ∧
      Sound setup s' g' (Function.update held (b, 1) (some puddleKey)) P ∧
      g'.orphans = g.orphans ∧ (∀ k', k' ≠ puddleKey → Unchanged g g' k') := by
  have hbypass := puddle_not_bypassed hsetup
  have hsize := size_puddleKey hsetup
  obtain ⟨s₁, h₁, hold, hexpand⟩ := mempoolExpand_alloc h puddleKey hk hbypass hfree b hfresh
  have hfree₁ : (g.addBlock setup puddleKey b).ledger.free puddleKey =
      (b, 0) :: (List.range' 1 9).map (Prod.mk b) := by
    change (g.ledger.addBlock (size setup) puddleKey b).free puddleKey = _
    rw [Ledger.addBlock_free, hfree, List.append_nil, hsize]
    rfl
  obtain ⟨s₂, hget, h₂⟩ := mempoolGetChunk_free h₁ puddleKey hk blocks hbypass _ _ hfree₁
  have hrecord : Function.update held (b, 0) (some puddleKey) (b, 0) = some puddleKey :=
    Function.update_self _ _ _
  have horphans : ((g.addBlock setup puddleKey b).take puddleKey (b, 0)
      ((List.range' 1 9).map (Prod.mk b))).orphans puddleKey = b :: g.orphans puddleKey := by
    change Function.update g.orphans puddleKey (b :: g.orphans puddleKey) puddleKey = _
    rw [Function.update_self]
  obtain ⟨s₃, hattach, h₃⟩ := mempoolExpand_attach h₂ puddleKey hk hbypass b _ horphans (b, 0)
    hrecord fun _ => rfl
  have hheld : held (b, 0) = none := by
    apply h₁.free_held (k := puddleKey)
    rw [hfree₁]
    exact List.mem_cons_self
  have hback : Function.update (Function.update held (b, 0) (some puddleKey)) (b, 0) none =
      held := by
    rw [Function.update_idem, ← hheld, Function.update_eq_self]
  rw [hback] at h₃
  have hfree₃ : (((g.addBlock setup puddleKey b).take puddleKey (b, 0)
      ((List.range' 1 9).map (Prod.mk b))).attach puddleKey (b, 0) b
        (g.orphans puddleKey)).ledger.free puddleKey =
      (b, 1) :: (List.range' 2 8).map (Prod.mk b) := by
    change Function.update (g.ledger.addBlock (size setup) puddleKey b).free puddleKey
      ((List.range' 1 9).map (Prod.mk b)) puddleKey = _
    rw [Function.update_self]
    rfl
  obtain ⟨s₄, htake, h₄⟩ := takeChunk_spec h₃ puddleKey hk _ _ hfree₃
  refine ⟨s₄, _, ?_, h₄, ?_, ?_⟩
  · have hzero : (s.pools poolPuddle).nrofFree 0 = 0 := by
      have hcount := (h.settled puddleKey hk).nrofFree
      rw [hfree] at hcount
      exact hcount
    have hbypass' : ¬ (s.pools poolPuddle).bypasses := by
      rw [h.bypasses]
      exact ne_true_of_eq_false hbypass
    rw [mempoolGetChunk.eq_def, if_neg hbypass', if_pos hzero]
    change (mempoolExpand _ b s puddleKey.1 puddleKey.2 >>= fun s => takeChunk s _ _) = _
    rw [hexpand]
    have hget : mempoolGetChunk blocks s₁ poolPuddle 0 = .ok ((b, 0), s₂) := hget
    rw [hget]
    change ((do
      let s₁ ← s₂.modifyPuddle (b, 0) _
      return s₁.modifyPool puddleKey.1 _) >>= fun s => takeChunk s poolPuddle 0) = _
    rw [hattach]
    exact htake
  · change Function.update (Function.update g.orphans puddleKey (b :: g.orphans puddleKey))
      puddleKey (g.orphans puddleKey) = g.orphans
    rw [Function.update_idem, Function.update_eq_self]
  · intro k' hne
    refine ⟨?_, Function.update_of_ne hne _ _, ?_⟩
    · change Function.update (Function.update (Function.update g.ledger.free puddleKey _)
        puddleKey _) puddleKey _ k' = _
      rw [Function.update_of_ne hne, Function.update_of_ne hne, Function.update_of_ne hne]
    · change Function.update (Function.update g.orphans puddleKey _) puddleKey _ k' = _
      rw [Function.update_of_ne hne, Function.update_of_ne hne]

/-- A record for a puddle. -/
theorem mempoolGet_puddle (h : Sound setup s g held P) (hk : P puddleKey) (b : ℕ)
    (blocks : List ℕ) (hfresh : Fresh s b) :
    ∃ a s' g', mempoolGetChunk (b :: blocks) s poolPuddle 0 = .ok (a, s') ∧
      Sound setup s' g' (Function.update held a (some puddleKey)) P ∧ g.ledger.used a = none ∧
      g'.orphans = g.orphans ∧ (∀ k', k' ≠ puddleKey → Unchanged g g' k') := by
  cases hfree : g.ledger.free puddleKey with
  | cons a rest =>
    have hbypass := puddle_not_bypassed hsetup
    obtain ⟨s', hget, hsound⟩ := mempoolGetChunk_free h puddleKey hk (b :: blocks) hbypass a rest hfree
    refine ⟨a, s', _, hget, hsound, ?_, rfl, ?_⟩
    · exact h.balanced.unused puddleKey a (hfree ▸ List.mem_cons_self)
    · intro k' hne
      exact ⟨Function.update_of_ne hne _ _, rfl, rfl⟩
  | nil =>
    obtain ⟨s', g', hget, hsound, hrest⟩ :=
      mempoolGet_puddle_expand hsetup h hk hfree b blocks hfresh
    exact ⟨(b, 1), s', g', hget, hsound, h.freshUnused hfresh 1, hrest⟩

/-- A chunk is got from a pool that has to be expanded. -/
theorem mempoolGetChunk_expand (h : Sound setup s g held P) (k : Key) (hk : P k)
    (hpuddle : P puddleKey) (hbypass : (setup k.1).bypasses = false) (hrecords : k ≠ puddleKey)
    (hfree : g.ledger.free k = []) (b b' : ℕ) (hfresh : Fresh s b) (hfresh' : Fresh s b')
    (hne : b' ≠ b) :
    ∃ p s' g', mempoolGetChunk [b, b'] s k.1 k.2 = .ok ((b, 0), s') ∧
      Sound setup s' g' (Function.update held (b, 0) (some k)) P ∧ g'.orphans = g.orphans ∧
      g'.records k = (p, b) :: g.records k ∧
      (∀ k', k' ≠ k → k' ≠ puddleKey → Unchanged g g' k') := by
  obtain ⟨s₁, h₁, hold, hexpand⟩ := mempoolExpand_alloc h k hk hbypass hfree b hfresh
  have hfresh₁ : Fresh s₁ b' := by
    intro i
    rw [hold (b', i) hne]
    exact hfresh' i
  obtain ⟨p, s₂, g₂, hget, h₂, hunused, horphans, hframe⟩ :=
    mempoolGet_puddle hsetup h₁ hpuddle b' [] hfresh₁
  have hheld := h₁.unused_held hunused
  have horphan : g₂.orphans k = b :: g.orphans k := by
    rw [horphans]
    change Function.update g.orphans k (b :: g.orphans k) k = _
    rw [Function.update_self]
  have hp : Function.update held p (some puddleKey) p = some puddleKey :=
    Function.update_self _ _ _
  obtain ⟨s₃, hattach, h₃⟩ := mempoolExpand_attach h₂ k hk hbypass b _ horphan p hp
    fun heq => absurd heq hrecords
  have hback : Function.update (Function.update held p (some puddleKey)) p none = held := by
    rw [Function.update_idem, ← hheld, Function.update_eq_self]
  rw [hback] at h₃
  obtain ⟨n, hn⟩ := Nat.exists_eq_succ_of_ne_zero (Nat.ne_of_gt (size_pos setup k))
  have hfree₃ : (g₂.attach k p b (g.orphans k)).ledger.free k =
      (b, 0) :: (List.range' 1 n).map (Prod.mk b) := by
    change g₂.ledger.free k = _
    rw [(hframe k hrecords).free]
    change (g.ledger.addBlock (size setup) k b).free k = _
    rw [Ledger.addBlock_free, hfree, List.append_nil, hn]
    unfold cells
    rw [List.range_eq_range', List.range'_succ, List.map_cons]
  obtain ⟨s₄, htake, h₄⟩ := takeChunk_spec h₃ k hk _ _ hfree₃
  refine ⟨p, s₄, _, ?_, h₄, ?_, ?_, ?_⟩
  · have hzero : (s.pools k.1).nrofFree k.2 = 0 := by
      rw [(h.settled k hk).nrofFree, hfree]
      rfl
    have hbypass' : ¬ (s.pools k.1).bypasses := by
      rw [h.bypasses]
      exact ne_true_of_eq_false hbypass
    rw [mempoolGetChunk.eq_def, if_neg hbypass', if_pos hzero]
    change (mempoolExpand _ b s k.1 k.2 >>= fun s => takeChunk s k.1 k.2) = _
    rw [hexpand, hget]
    change ((do
      let s₁ ← s₂.modifyPuddle p _
      return s₁.modifyPool k.1 _) >>= fun s => takeChunk s k.1 k.2) = _
    rw [hattach]
    exact htake
  · change Function.update g₂.orphans k (g.orphans k) = g.orphans
    rw [horphans]
    change Function.update (Function.update g.orphans k (b :: g.orphans k)) k (g.orphans k) = _
    rw [Function.update_idem, Function.update_eq_self]
  · have hsame : g₂.records k = g.records k := (hframe k hrecords).records
    rw [← hsame]
    exact Function.update_self k ((p, b) :: g₂.records k) g₂.records
  · intro k' hk' hk''
    have hsame := hframe k' hk''
    refine ⟨?_, ?_, ?_⟩
    · change Function.update g₂.ledger.free k _ k' = _
      rw [Function.update_of_ne hk', hsame.free]
      exact Function.update_of_ne hk' _ _
    · change Function.update g₂.records k _ k' = _
      rw [Function.update_of_ne hk', hsame.records]
      rfl
    · change Function.update g₂.orphans k _ k' = _
      rw [Function.update_of_ne hk', hsame.orphans]
      exact Function.update_of_ne hk' _ _

/-- A chunk is got that is not in use, and only the lists of its key and those of the records
change. -/
theorem mempoolGetChunk_spec (h : Sound setup s g held P) (k : Key) (hk : P k)
    (hpuddle : P puddleKey) (b b' : ℕ) (hfresh : Fresh s b) (hfresh' : Fresh s b') (hne : b' ≠ b) :
    ∃ a s' g', mempoolGetChunk [b, b'] s k.1 k.2 = .ok (a, s') ∧
      Sound setup s' g' (Function.update held a (some k)) P ∧ g.ledger.used a = none ∧
      (∀ k', (setup k'.1).bypasses = false → g'.orphans k' = g.orphans k') ∧
      (∀ k', k' ≠ k → k' ≠ puddleKey → Unchanged g g' k') := by
  cases hbypass : (setup k.1).bypasses with
  | true =>
    obtain ⟨s', g', hget, hsound, hframe⟩ := mempoolGetChunk_bypass h k hk hbypass b [b'] hfresh
    refine ⟨(b, 0), s', g', hget, hsound, h.freshUnused hfresh 0, ?_, fun k' hk' _ => hframe k' hk'⟩
    intro k' hk'
    apply (hframe k' _).orphans
    intro heq
    rw [heq, hbypass] at hk'
    cases hk'
  | false =>
    by_cases hrecords : k = puddleKey
    · obtain ⟨a, s', g', hget, hsound, hunused, horphans, hframe⟩ :=
        mempoolGet_puddle hsetup h hpuddle b [b'] hfresh
      rw [hrecords]
      exact ⟨a, s', g', hget, hsound, hunused, fun k' _ => congrFun horphans k',
        fun k' hk' _ => hframe k' hk'⟩
    cases hfree : g.ledger.free k with
    | cons a rest =>
      obtain ⟨s', hget, hsound⟩ := mempoolGetChunk_free h k hk [b, b'] hbypass a rest hfree
      refine ⟨a, s', _, hget, hsound, ?_, fun _ _ => rfl, ?_⟩
      · exact h.balanced.unused k a (hfree ▸ List.mem_cons_self)
      · intro k' hk' _
        exact ⟨Function.update_of_ne hk' _ _, rfl, rfl⟩
    | nil =>
      obtain ⟨_, s', g', hget, hsound, horphans, _, hframe⟩ := mempoolGetChunk_expand hsetup h k hk
        hpuddle hbypass hrecords hfree b b' hfresh hfresh' hne
      exact ⟨(b, 0), s', g', hget, hsound, h.freshUnused hfresh 0,
        fun k' _ => congrFun horphans k', hframe⟩

end Get

end LibAtrinik.Mempool

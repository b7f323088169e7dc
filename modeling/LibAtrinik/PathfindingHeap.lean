import LibAtrinik.BinaryHeap
import LibAtrinik.PathfindingStore

namespace LibAtrinik.Pathfinding

/-- The key of the node at a position of the heap. -/
def heapKey (c : Context) (p : ℕ) : ℕ ×ₗ ℕ ×ₗ ℕ := nodeKey (c.node (c.heapAt p))

/-- The heap lists each open node once, except the node `out`, and each listed node knows its
position. -/
structure Placed (c : Context) (out : Option ℕ) : Prop where
  count_le : c.heapCount ≤ c.heapCapacity
  bound : ∀ p < c.heapCount, c.heapAt p < c.nodeCount
  index : ∀ p < c.heapCount, (c.node (c.heapAt p)).heapIndex = some p
  isOpen : ∀ p < c.heapCount, (c.node (c.heapAt p)).closed = false
  fresh : ∀ p < c.heapCount, out ≠ some (c.heapAt p)
  complete : ∀ i < c.nodeCount, (c.node i).closed = false → out ≠ some i →
    ∃ p < c.heapCount, c.heapAt p = i

/-- Only heap entries and heap indices differ. -/
structure HeapFrame (c c' : Context) : Prop where
  rest : c' = { c with heap := c'.heap, nodes := c'.nodes }
  heap : c'.heap.length = c.heap.length
  nodes : c'.nodes.length = c.nodes.length
  erase : ∀ i, (c'.node i).erase = (c.node i).erase

theorem HeapFrame.refl (c : Context) : HeapFrame c c := ⟨rfl, rfl, rfl, fun _ => rfl⟩

theorem HeapFrame.trans {c c' c'' : Context} (h : HeapFrame c c') (h' : HeapFrame c' c'') :
    HeapFrame c c'' := by
  refine ⟨?_, h'.heap.trans h.heap, h'.nodes.trans h.nodes,
    fun i => (h'.erase i).trans (h.erase i)⟩
  rw [h'.rest, h.rest]

theorem HeapFrame.state {c c' : Context} (h : HeapFrame c c') (i : ℕ) :
    (c'.node i).state = (c.node i).state := by
  have he := congrArg PfNode.state (h.erase i)
  exact he

theorem HeapFrame.closed {c c' : Context} (h : HeapFrame c c') (i : ℕ) :
    (c'.node i).closed = (c.node i).closed := by
  have he := congrArg PfNode.closed (h.erase i)
  exact he

theorem HeapFrame.key {c c' : Context} (h : HeapFrame c c') (i : ℕ) :
    nodeKey (c'.node i) = nodeKey (c.node i) := by
  have he := congrArg nodeKey (h.erase i)
  exact he

/-- The storage invariant depends on the states and sequence numbers of the nodes only. -/
theorem Indexed.congr {c : Context} (hi : Indexed c) (nodes : List PfNode)
    (hl : nodes.length = c.nodes.length)
    (hs : ∀ i < c.nodeCount, (nodes.getD i default).state = (c.node i).state)
    (hq : ∀ i < c.nodeCount, (nodes.getD i default).sequence = i) :
    Indexed { c with nodes := nodes } := by
  have hsh := hi.shape
  refine ⟨⟨hl.trans hsh.nodes, hsh.hash, hsh.power, hsh.heap, hsh.path, hsh.reachable, hsh.bytes⟩,
    hi.count_le, hi.half, ?_, hq, hi.holds.congr nodes hs⟩
  intro i h j h' he
  exact hi.distinct i h j h' ((hs i h).symm.trans (he.trans (hs j h')))

theorem HeapFrame.indexed {c c' : Context} (h : HeapFrame c c') (hi : Indexed c) :
    Indexed c' := by
  have hfr := hi.congr c'.nodes h.nodes (fun i _ => h.state i)
    (fun i hlt => (congrArg PfNode.sequence (h.erase i)).trans (hi.sequence i hlt))
  have hs := hfr.shape
  rw [h.rest]
  exact ⟨⟨hs.nodes, hs.hash, hs.power, h.heap.trans hi.shape.heap, hs.path, hs.reachable,
      hs.bytes⟩,
    hfr.count_le, hfr.half, hfr.distinct, hfr.sequence, hfr.holds⟩

theorem pfNodeBefore_iff (c : Context) (i j : ℕ) :
    pfNodeBefore c i j = true ↔ nodeKey (c.node i) < nodeKey (c.node j) := by
  unfold pfNodeBefore nodeKey
  simp only [Prod.Lex.toLex_lt_toLex]
  split_ifs with h1 h2
  · simp [h1]
  · push Not at h1
    simp [h1, h2]
  · push Not at h1 h2
    simp [h1, h2]

theorem node_setHeapIndex (c : Context) (i j : ℕ) (q : Option ℕ) (hi : i < c.nodes.length) :
    (c.setHeapIndex i q).node j =
      if j = i then { c.node i with heapIndex := q } else c.node j := by
  unfold Context.setHeapIndex Context.setNode Context.node
  split_ifs with h
  · subst h
    simp [hi]
  · simp [Ne.symm h]

/-- Setting a heap index keeps everything else. -/
theorem HeapFrame.setHeapIndex (c : Context) (i : ℕ) (q : Option ℕ) (hi : i < c.nodes.length) :
    HeapFrame c (c.setHeapIndex i q) := by
  refine ⟨rfl, rfl, by simp [Context.setHeapIndex, Context.setNode], ?_⟩
  intro j
  rw [node_setHeapIndex c i j q hi]
  split_ifs with h
  · rw [h]
    rfl
  · rfl

theorem heapAt_set (c : Context) (p q v : ℕ) (hp : p < c.heap.length) :
    ({ c with heap := c.heap.set p v } : Context).heapAt q = if q = p then v else c.heapAt q := by
  unfold Context.heapAt
  split_ifs with h
  · subst h
    simp [hp]
  · simp [Ne.symm h]

/-- One swap exchanges two heap entries and keeps the heap indices right. -/
theorem pfHeapSwap_spec (c : Context) (hi : Indexed c) (out : Option ℕ) (hp : Placed c out)
    (l r : ℕ) (hl : l < c.heapCount) (hr : r < c.heapCount) (hne : l ≠ r) :
    HeapFrame c (pfHeapSwap c l r) ∧ Placed (pfHeapSwap c l r) out ∧
      ∀ p < c.heapCount, (pfHeapSwap c l r).heapAt p = c.heapAt (Equiv.swap l r p) := by
  have hcl := hp.count_le
  have hheap := hi.shape.heap
  have hnodes := hi.count_le_length
  let c1 : Context := { c with heap := c.heap.set l (c.heapAt r) }
  let c2 : Context := { c1 with heap := c1.heap.set r (c.heapAt l) }
  have hat (p : ℕ) : c2.heapAt p = if p = r then c.heapAt l else if p = l then c.heapAt r
      else c.heapAt p := by
    rw [heapAt_set c1 r p _ (by simp [c1]; omega), heapAt_set c l p _ (by omega)]
  have hatl : c2.heapAt l = c.heapAt r := by rw [hat, if_neg hne, if_pos rfl]
  have hatr : c2.heapAt r = c.heapAt l := by rw [hat, if_pos rfl]
  have hbl : c2.heapAt l < c2.nodes.length := by
    rw [hatl]
    exact lt_of_lt_of_le (hp.bound r hr) hnodes
  have hbr : c2.heapAt r < c2.nodes.length := by
    rw [hatr]
    exact lt_of_lt_of_le (hp.bound l hl) hnodes
  let c3 := c2.setHeapIndex (c2.heapAt l) (some l)
  have hf3 : HeapFrame c2 c3 := HeapFrame.setHeapIndex c2 _ _ hbl
  have hbr3 : c2.heapAt r < c3.nodes.length := by rw [hf3.nodes]; exact hbr
  have hres : pfHeapSwap c l r = c3.setHeapIndex (c2.heapAt r) (some r) := rfl
  have hf4 := HeapFrame.setHeapIndex c3 (c2.heapAt r) (some r) hbr3
  have hf : HeapFrame c (pfHeapSwap c l r) := by
    have h12 : HeapFrame c c2 := ⟨rfl, by simp [c1, c2], rfl, fun _ => rfl⟩
    rw [hres]
    exact (h12.trans hf3).trans hf4
  have hswap (p : ℕ) : (pfHeapSwap c l r).heapAt p = c.heapAt (Equiv.swap l r p) := by
    have h0 : (pfHeapSwap c l r).heapAt p = c2.heapAt p := rfl
    rw [h0, hat]
    by_cases hpr : p = r
    · rw [if_pos hpr, hpr, Equiv.swap_apply_right]
    · by_cases hpl : p = l
      · rw [if_neg hpr, if_pos hpl, hpl, Equiv.swap_apply_left]
      · rw [if_neg hpr, if_neg hpl, Equiv.swap_apply_of_ne_of_ne hpl hpr]
  have hsw (p : ℕ) (h : p < c.heapCount) : Equiv.swap l r p < c.heapCount := by
    rw [Equiv.swap_apply_def]
    split_ifs <;> omega
  refine ⟨hf, ⟨hcl, ?_, ?_, ?_, ?_, ?_⟩, fun p _ => hswap p⟩
  · intro p h
    rw [hswap p]
    exact hp.bound _ (hsw p h)
  · -- the two swapped entries were given their new positions, all others keep theirs
    intro p h
    have hinj (a b : ℕ) (ha : a < c.heapCount) (hb : b < c.heapCount)
        (hab : c.heapAt a = c.heapAt b) : a = b := by
      have h1 := hp.index a ha
      rw [hab, hp.index b hb] at h1
      exact (Option.some.inj h1).symm
    have h3 (j : ℕ) : c3.node j =
        if j = c.heapAt r then { c.node (c.heapAt r) with heapIndex := some l } else c.node j := by
      have h : c3.node j = _ := node_setHeapIndex c2 (c2.heapAt l) j (some l) hbl
      rw [h, hatl]
      rfl
    rw [hswap p, hres, node_setHeapIndex c3 _ _ _ hbr3, hatr]
    by_cases hpr : p = r
    · rw [hpr, Equiv.swap_apply_right, if_pos rfl]
    · have hpr' : Equiv.swap l r p ≠ l := by
        rwa [Ne, Equiv.swap_apply_eq_iff, Equiv.swap_apply_left]
      rw [if_neg (fun he => hpr' (hinj _ _ (hsw p h) hl he)), h3]
      by_cases hpl : p = l
      · rw [hpl, Equiv.swap_apply_left, if_pos rfl]
      · rw [Equiv.swap_apply_of_ne_of_ne hpl hpr, if_neg (fun he => hpr (hinj _ _ h hr he))]
        exact hp.index p h
  · intro p h
    rw [hswap p, hf.closed]
    exact hp.isOpen _ (hsw p h)
  · intro p h
    rw [hswap p]
    exact hp.fresh _ (hsw p h)
  · intro i h ho hout
    rw [hf.closed] at ho
    obtain ⟨p, hlt, he⟩ := hp.complete i h ho hout
    refine ⟨Equiv.swap l r p, hsw p hlt, ?_⟩
    rw [hswap, Equiv.swap_apply_self, he]

/-- What a sifting loop achieves from a context `c`. -/
structure Sifted (c c' : Context) (out : Option ℕ) : Prop where
  frame : HeapFrame c c'
  placed : Placed c' out
  ordered : BinaryHeap.Ordered c.heapCount (heapKey c')

theorem HeapFrame.heapCount {c c' : Context} (h : HeapFrame c c') :
    c'.heapCount = c.heapCount := by
  have he := congrArg Context.heapCount h.rest
  exact he

/-- Sifting up ends with an ordered heap. -/
theorem pfHeapUpLoop_sifted (fuel : ℕ) (c : Context) (hi : Indexed c) (out : Option ℕ)
    (hp : Placed c out) (p : ℕ) (hu : BinaryHeap.UpReady c.heapCount (heapKey c) p)
    (hf : p ≤ fuel) : Sifted c (pfHeapUpLoop fuel c p) out := by
  induction fuel generalizing c p with
  | zero => exact ⟨HeapFrame.refl c, hp, hu.ordered (Or.inl (by omega))⟩
  | succ fuel ih =>
    unfold pfHeapUpLoop
    dsimp only
    split_ifs with h0 hb
    · have hlt := hu.lt
      obtain ⟨hfr, hpl, hat⟩ := pfHeapSwap_spec c hi out hp p ((p-1)/2) hlt (by omega) (by omega)
      have hkey (q : ℕ) (hq : q < c.heapCount) : heapKey (pfHeapSwap c p ((p-1)/2)) q =
          heapKey c (Equiv.swap p ((p-1)/2) q) := by
        unfold heapKey
        rw [hfr.key, hat q hq]
      have hlt' : heapKey c p < heapKey c ((p-1)/2) := (pfNodeBefore_iff c _ _).mp hb
      have hrec := ih (pfHeapSwap c p ((p-1)/2)) (hfr.indexed hi) hpl ((p-1)/2)
        (by rw [hfr.heapCount]; exact hu.swap (by omega) hlt' hkey) (by omega)
      exact ⟨hfr.trans hrec.frame, hrec.placed, by rw [← hfr.heapCount]; exact hrec.ordered⟩
    · refine ⟨HeapFrame.refl c, hp, hu.ordered (Or.inr ?_)⟩
      exact not_lt.mp (fun h => hb ((pfNodeBefore_iff c _ _).mpr h))
    · exact ⟨HeapFrame.refl c, hp, hu.ordered (Or.inl (by omega))⟩

/-- The child that `pf_heap_down` selects, if any, is the least one and precedes its parent. -/
theorem pfHeapBest_cases (c : Context) (p : ℕ) :
    (pfHeapBest c p = p ∧ (p*2+1 < c.heapCount → heapKey c p ≤ heapKey c (p*2+1)) ∧
      (p*2+1+1 < c.heapCount → heapKey c p ≤ heapKey c (p*2+1+1))) ∨
    (0 < pfHeapBest c p ∧ pfHeapBest c p < c.heapCount ∧ (pfHeapBest c p-1)/2 = p ∧
      heapKey c (pfHeapBest c p) < heapKey c p ∧
      ∀ i, 0 < i → i < c.heapCount → (i-1)/2 = p → heapKey c (pfHeapBest c p) ≤ heapKey c i) := by
  have hbefore (a b : ℕ) : pfNodeBefore c (c.heapAt a) (c.heapAt b) = true ↔
      heapKey c a < heapKey c b := pfNodeBefore_iff c _ _
  have hchild (i : ℕ) (h0 : 0 < i) (h : (i-1)/2 = p) : i = p*2+1 ∨ i = p*2+1+1 := by omega
  unfold pfHeapBest
  dsimp only
  simp only [hbefore]
  by_cases hl : p*2+1 < c.heapCount ∧ heapKey c (p*2+1) < heapKey c p
  · rw [if_pos hl]
    right
    by_cases hr : p*2+1+1 < c.heapCount ∧ heapKey c (p*2+1+1) < heapKey c (p*2+1)
    · rw [if_pos hr]
      refine ⟨by omega, hr.1, by omega, hr.2.trans hl.2, ?_⟩
      intro i h0 hi hpi
      rcases hchild i h0 hpi with rfl | rfl
      · exact hr.2.le
      · exact le_rfl
    · rw [if_neg hr]
      refine ⟨by omega, hl.1, by omega, hl.2, ?_⟩
      intro i h0 hi hpi
      rcases hchild i h0 hpi with rfl | rfl
      · exact le_rfl
      · exact not_lt.mp (fun h => hr ⟨hi, h⟩)
  · rw [if_neg hl]
    have hle : p*2+1 < c.heapCount → heapKey c p ≤ heapKey c (p*2+1) :=
      fun h => not_lt.mp (fun h' => hl ⟨h, h'⟩)
    by_cases hr : p*2+1+1 < c.heapCount ∧ heapKey c (p*2+1+1) < heapKey c p
    · rw [if_pos hr]
      right
      refine ⟨by omega, hr.1, by omega, hr.2, ?_⟩
      intro i h0 hi hpi
      rcases hchild i h0 hpi with rfl | rfl
      · exact hr.2.le.trans (hle hi)
      · exact le_rfl
    · rw [if_neg hr]
      exact Or.inl ⟨rfl, hle, fun h => not_lt.mp (fun h' => hr ⟨h, h'⟩)⟩

/-- Sifting down ends with an ordered heap. -/
theorem pfHeapDownLoop_sifted (fuel : ℕ) (c : Context) (hi : Indexed c) (out : Option ℕ)
    (hp : Placed c out) (p : ℕ) (hd : BinaryHeap.DownReady c.heapCount (heapKey c) p)
    (hf : c.heapCount ≤ p+fuel) : Sifted c (pfHeapDownLoop fuel c p) out := by
  induction fuel generalizing c p with
  | zero =>
    refine ⟨HeapFrame.refl c, hp, hd.ordered ?_ ?_⟩ <;> intro h <;> omega
  | succ fuel ih =>
    unfold pfHeapDownLoop
    dsimp only
    rcases pfHeapBest_cases c p with ⟨hb, hl, hr⟩ | ⟨h0, hn, hpar, hlt, hleast⟩
    · rw [if_pos hb]
      exact ⟨HeapFrame.refl c, hp, hd.ordered hl hr⟩
    · rw [if_neg (by omega)]
      obtain ⟨hfr, hpl, hat⟩ := pfHeapSwap_spec c hi out hp p (pfHeapBest c p) (by omega) hn
        (by omega)
      have hkey (q : ℕ) (hq : q < c.heapCount) : heapKey (pfHeapSwap c p (pfHeapBest c p)) q =
          heapKey c (Equiv.swap p (pfHeapBest c p) q) := by
        unfold heapKey
        rw [hfr.key, hat q hq]
      have hrec := ih (pfHeapSwap c p (pfHeapBest c p)) (hfr.indexed hi) hpl (pfHeapBest c p)
        (by rw [hfr.heapCount]; exact hd.swap h0 hn hpar hlt hleast hkey)
        (by rw [hfr.heapCount]; omega)
      exact ⟨hfr.trans hrec.frame, hrec.placed, by rw [← hfr.heapCount]; exact hrec.ordered⟩

end LibAtrinik.Pathfinding

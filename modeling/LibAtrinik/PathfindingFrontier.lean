import LibAtrinik.PathfindingHeap

/-! The heap as the frontier: popping yields the least open node, pushing and raising a node
keep the order. The node that a function has taken out of the heap, or has not pushed yet, is
the `out` of the invariant. -/
namespace LibAtrinik.Pathfinding

structure Frontier (c : Context) (out : Option ℕ) : Prop where
  placed : Placed c out
  ordered : BinaryHeap.Ordered c.heapCount (heapKey c)

theorem Sifted.frontier {c c' : Context} {out : Option ℕ} (h : Sifted c c' out) :
    Frontier c' out := ⟨h.placed, by rw [h.frame.heapCount]; exact h.ordered⟩

theorem Indexed.isOpen_iff {c : Context} (hi : Indexed c) (i : ℕ) :
    IsOpen c.nodeList i ↔ i < c.nodeCount ∧ (c.node i).closed = false := by
  unfold IsOpen
  rw [hi.length_eq]
  constructor
  · rintro ⟨hlt, ho⟩
    rw [hi.nodeAt_eq i hlt] at ho
    exact ⟨hlt, ho⟩
  · rintro ⟨hlt, ho⟩
    refine ⟨hlt, ?_⟩
    rw [hi.nodeAt_eq i hlt]
    exact ho

theorem Placed.heapAt_inj {c : Context} {out : Option ℕ} (hp : Placed c out) (a b : ℕ)
    (ha : a < c.heapCount) (hb : b < c.heapCount) (h : c.heapAt a = c.heapAt b) : a = b := by
  have h1 := hp.index a ha
  rw [h, hp.index b hb] at h1
  exact (Option.some.inj h1).symm

/-- The heap count is the number of open nodes. -/
theorem Placed.heapCount_eq {c : Context} (hi : Indexed c) (hp : Placed c none) :
    c.heapCount = openCount c.nodeList := by
  unfold openCount
  have himage : (Finset.range c.nodeList.length).filter (IsOpen c.nodeList) =
      (Finset.range c.heapCount).image c.heapAt := by
    ext i
    simp only [Finset.mem_filter, Finset.mem_range, Finset.mem_image, hi.isOpen_iff]
    constructor
    · rintro ⟨_, hlt, ho⟩
      exact hp.complete i hlt ho (by simp)
    · rintro ⟨p, hlt, rfl⟩
      have hb := hp.bound p hlt
      exact ⟨by rwa [hi.length_eq], hb, hp.isOpen p hlt⟩
  rw [himage, Finset.card_image_of_injOn, Finset.card_range]
  intro a ha b hb
  exact hp.heapAt_inj a b (by simpa using ha) (by simpa using hb)

theorem nodeKey_sequence (a b : PfNode) (h : nodeKey a = nodeKey b) : a.sequence = b.sequence :=
  congrArg (fun k => (ofLex (ofLex k).2).2) h

/-- The least node of the frontier is unique, because sequence numbers are. -/
theorem nextOpen_eq_some (nodes : List PfNode) (i : ℕ) (h : IsNext nodes i)
    (hseq : ∀ j < nodes.length, (nodeAt nodes j).sequence = j) : nextOpen nodes = some i := by
  unfold nextOpen
  cases hf : (List.range nodes.length).find? fun i => decide (IsNext nodes i) with
  | none =>
    have := List.find?_eq_none.mp hf i (List.mem_range.mpr h.1.1)
    simp [h] at this
  | some j =>
    have hj : IsNext nodes j := by simpa using List.find?_some hf
    have hle := le_antisymm (hj.2 i h.1.1 h.1) (h.2 j hj.1.1 hj.1)
    have hs := nodeKey_sequence _ _ hle
    rw [hseq j hj.1.1, hseq i h.1.1] at hs
    rw [hs]

theorem nextOpen_isNext (nodes : List PfNode) (i : ℕ) (h : nextOpen nodes = some i) :
    IsNext nodes i := by
  unfold nextOpen at h
  simpa using List.find?_some h

theorem nextOpen_eq_none (nodes : List PfNode) (h : ∀ i, ¬IsOpen nodes i) :
    nextOpen nodes = none := by
  unfold nextOpen
  rw [List.find?_eq_none]
  intro i _ hn
  exact h i (by simpa using hn : IsNext nodes i).1

theorem Indexed.sequence_nodeList {c : Context} (hi : Indexed c) (j : ℕ)
    (hj : j < c.nodeList.length) : (nodeAt c.nodeList j).sequence = j := by
  rw [hi.length_eq] at hj
  rw [hi.nodeAt_eq j hj]
  exact hi.sequence j hj

/-- The root of the heap is the least open node. -/
theorem Frontier.nextOpen_eq {c : Context} (hi : Indexed c) (hf : Frontier c none)
    (h0 : c.heapCount ≠ 0) : nextOpen c.nodeList = some (c.heapAt 0) := by
  have hpos : 0 < c.heapCount := Nat.pos_of_ne_zero h0
  have hb := hf.placed.bound 0 hpos
  apply nextOpen_eq_some _ _ _ hi.sequence_nodeList
  refine ⟨(hi.isOpen_iff _).mpr ⟨hb, hf.placed.isOpen 0 hpos⟩, ?_⟩
  intro j hj ho
  obtain ⟨hlt, hopen⟩ := (hi.isOpen_iff j).mp ho
  obtain ⟨p, hp, rfl⟩ := hf.placed.complete j hlt hopen (by simp)
  rw [hi.nodeAt_eq _ hb, hi.nodeAt_eq _ hlt]
  exact hf.ordered.root_le p hp

theorem Placed.nextOpen_eq_none {c : Context} (hi : Indexed c) (hp : Placed c none)
    (h0 : c.heapCount = 0) : nextOpen c.nodeList = none := by
  apply Pathfinding.nextOpen_eq_none
  intro i ho
  obtain ⟨hlt, hopen⟩ := (hi.isOpen_iff i).mp ho
  obtain ⟨p, hp', _⟩ := hp.complete i hlt hopen (by simp)
  omega

section Entries

variable {c c' : Context}

/-- The entries of the heap are as before, while other nodes may differ. -/
theorem Frontier.congr {out out' : Option ℕ} (hf : Frontier c out) (hh : c'.heap = c.heap)
    (hcount : c'.heapCount = c.heapCount) (hcapacity : c'.heapCapacity = c.heapCapacity)
    (hnodes : c.nodeCount ≤ c'.nodeCount)
    (hold : ∀ p < c.heapCount, c'.node (c.heapAt p) = c.node (c.heapAt p))
    (hfresh : ∀ p < c.heapCount, out' ≠ some (c.heapAt p))
    (hcomplete : ∀ i < c'.nodeCount, (c'.node i).closed = false → out' ≠ some i →
      ∃ p < c.heapCount, c.heapAt p = i) :
    Frontier c' out' := by
  have hp := hf.placed
  have hat (p : ℕ) : c'.heapAt p = c.heapAt p := by unfold Context.heapAt; rw [hh]
  refine ⟨⟨by rw [hcount, hcapacity]; exact hp.count_le, ?_, ?_, ?_, ?_, ?_⟩, ?_⟩
  · intro p h
    rw [hcount] at h
    rw [hat]
    exact (hp.bound p h).trans_le hnodes
  · intro p h
    rw [hcount] at h
    rw [hat, hold p h]
    exact hp.index p h
  · intro p h
    rw [hcount] at h
    rw [hat, hold p h]
    exact hp.isOpen p h
  · intro p h
    rw [hcount] at h
    rw [hat]
    exact hfresh p h
  · intro i h ho hout
    obtain ⟨p, h', he⟩ := hcomplete i h ho hout
    exact ⟨p, by rwa [hcount], by rw [hat, he]⟩
  · intro p h0 h
    rw [hcount] at h
    unfold heapKey
    rw [hat, hat, hold p h, hold _ (by omega)]
    exact hf.ordered p h0 h

/-- The last entry takes the place of the root. -/
theorem Placed.replaceRoot (hp : Placed c none) (h1 : c.heapCount-1 ≠ 0)
    (hcount : c'.heapCount = c.heapCount-1) (hcapacity : c'.heapCapacity = c.heapCapacity)
    (hnodes : c'.nodeCount = c.nodeCount)
    (hat : ∀ p, c'.heapAt p = if p = 0 then c.heapAt (c.heapCount-1) else c.heapAt p)
    (hclosed : ∀ j, (c'.node j).closed = (c.node j).closed)
    (hlast : (c'.node (c.heapAt (c.heapCount-1))).heapIndex = some 0)
    (hindex : ∀ j, j ≠ c.heapAt 0 → j ≠ c.heapAt (c.heapCount-1) →
      (c'.node j).heapIndex = (c.node j).heapIndex) :
    Placed c' (some (c.heapAt 0)) := by
  have hcl := hp.count_le
  have hne (p q : ℕ) (hp' : p < c.heapCount) (hq : q < c.heapCount) (hpq : p ≠ q) :
      c.heapAt p ≠ c.heapAt q := fun h => hpq (hp.heapAt_inj p q hp' hq h)
  -- position `p` of the new heap shows an entry of a nonzero position of the old one
  have hsrc (p : ℕ) (hlt : p < c'.heapCount) : ∃ q, q < c.heapCount ∧ q ≠ 0 ∧
      c'.heapAt p = c.heapAt q := by
    rw [hat]
    by_cases hp0 : p = 0
    · exact ⟨c.heapCount-1, by omega, h1, by rw [if_pos hp0]⟩
    · exact ⟨p, by omega, hp0, by rw [if_neg hp0]⟩
  refine ⟨by omega, ?_, ?_, ?_, ?_, ?_⟩
  · intro p hlt
    obtain ⟨q, hq, _, he⟩ := hsrc p hlt
    rw [he, hnodes]
    exact hp.bound q hq
  · intro p hlt
    rw [hat]
    by_cases hp0 : p = 0
    · rw [if_pos hp0, hp0]
      exact hlast
    · rw [if_neg hp0, hindex _ (hne p 0 (by omega) (by omega) hp0)
        (hne p (c.heapCount-1) (by omega) (by omega) (by omega))]
      exact hp.index p (by omega)
  · intro p hlt
    obtain ⟨q, hq, _, he⟩ := hsrc p hlt
    rw [hclosed, he]
    exact hp.isOpen q hq
  · intro p hlt
    obtain ⟨q, hq, hq0, he⟩ := hsrc p hlt
    rw [he]
    exact fun h => hne q 0 hq (by omega) hq0 (Option.some.inj h).symm
  · intro i hlt ho hout
    rw [hclosed] at ho
    rw [hnodes] at hlt
    obtain ⟨p, hlt', rfl⟩ := hp.complete i hlt ho (by simp)
    have hp0 : p ≠ 0 := fun h => hout (by rw [h])
    by_cases hpl : p = c.heapCount-1
    · exact ⟨0, by omega, by rw [hat, if_pos rfl, hpl]⟩
    · exact ⟨p, by omega, by rw [hat, if_neg hp0]⟩

/-- The node that is out goes to the end of the heap. -/
theorem Placed.enter {node : ℕ} (hp : Placed c (some node)) (hn : node < c.nodeCount)
    (hcount : c'.heapCount = c.heapCount+1) (hcapacity : c.heapCount < c'.heapCapacity)
    (hnodes : c'.nodeCount = c.nodeCount)
    (hat : ∀ p < c.heapCount, c'.heapAt p = c.heapAt p) (hlast : c'.heapAt c.heapCount = node)
    (hopen : (c'.node node).closed = false) (hindex : (c'.node node).heapIndex = some c.heapCount)
    (hother : ∀ j, j ≠ node → c'.node j = c.node j) :
    Placed c' none := by
  have hold (p : ℕ) (h : p < c.heapCount) : c.heapAt p ≠ node :=
    fun h' => hp.fresh p h (by rw [h'])
  have hcases (p : ℕ) (h : p < c'.heapCount) : p < c.heapCount ∨ p = c.heapCount := by omega
  refine ⟨by omega, ?_, ?_, ?_, fun _ _ => by simp, ?_⟩
  · intro p h
    rw [hnodes]
    rcases hcases p h with h | rfl
    · rw [hat p h]
      exact hp.bound p h
    · rw [hlast]
      exact hn
  · intro p h
    rcases hcases p h with h | rfl
    · rw [hat p h, hother _ (hold p h)]
      exact hp.index p h
    · rw [hlast]
      exact hindex
  · intro p h
    rcases hcases p h with h | rfl
    · rw [hat p h, hother _ (hold p h)]
      exact hp.isOpen p h
    · rw [hlast]
      exact hopen
  · intro i h ho _
    by_cases hin : i = node
    · exact ⟨c.heapCount, by omega, by rw [hlast, hin]⟩
    · rw [hother i hin] at ho
      rw [hnodes] at h
      obtain ⟨p, hlt, he⟩ := hp.complete i h ho (fun h' => hin (Option.some.inj h').symm)
      exact ⟨p, by omega, by rw [hat p hlt, he]⟩

end Entries

/-- `pf_heap_pop` returns the root and leaves the other open nodes in order. -/
theorem pfHeapPop_spec (c : Context) (hi : Indexed c) (hf : Frontier c none)
    (h0 : c.heapCount ≠ 0) :
    (pfHeapPop c).1 = c.heapAt 0 ∧
      HeapFrame { c with heapCount := c.heapCount-1 } (pfHeapPop c).2 ∧
      Frontier (pfHeapPop c).2 (some (c.heapAt 0)) := by
  have hp := hf.placed
  have hcl := hp.count_le
  have hheap := hi.shape.heap
  have hlen := hi.count_le_length
  have hpos : 0 < c.heapCount := Nat.pos_of_ne_zero h0
  let c1 : Context := { c with heapCount := c.heapCount-1 }
  have hb0 : c.heapAt 0 < c1.nodes.length := lt_of_lt_of_le (hp.bound 0 hpos) hlen
  let c2 := c1.setHeapIndex (c.heapAt 0) none
  have hf2 : HeapFrame c1 c2 := HeapFrame.setHeapIndex c1 _ _ hb0
  have hnode2 (j : ℕ) (hj : j ≠ c.heapAt 0) : c2.node j = c.node j := by
    have h : c2.node j = _ := node_setHeapIndex c1 (c.heapAt 0) j none hb0
    rw [h, if_neg hj]
    rfl
  refine ⟨rfl, ?_⟩
  by_cases h1 : c.heapCount-1 = 0
  · -- the heap becomes empty
    have hres : (pfHeapPop c).2 = c2 := if_neg (not_not.mpr h1)
    rw [hres]
    have hnone (p : ℕ) : ¬p < c2.heapCount := by
      show ¬p < c.heapCount-1
      omega
    refine ⟨hf2, ⟨by show c.heapCount-1 ≤ c.heapCapacity; omega, fun p h => absurd h (hnone p),
      fun p h => absurd h (hnone p), fun p h => absurd h (hnone p),
      fun p h => absurd h (hnone p), ?_⟩, fun p _ h => absurd h (hnone p)⟩
    · intro i hlt ho hout
      rw [hf2.closed] at ho
      obtain ⟨p, hlt', rfl⟩ := hp.complete i hlt ho (by simp)
      obtain rfl : p = 0 := by omega
      exact absurd rfl hout
  · let last := c.heapAt (c.heapCount-1)
    let c3 : Context := { c2 with heap := c2.heap.set 0 last }
    have hat3 (p : ℕ) : c3.heapAt p = if p = 0 then last else c.heapAt p :=
      heapAt_set c2 0 p last (by show 0 < c.heap.length; omega)
    have hb3 : c3.heapAt 0 < c3.nodes.length := by
      rw [hat3, if_pos rfl]
      exact lt_of_lt_of_le (hp.bound _ (by omega)) (by rw [← hf2.nodes] at hlen; exact hlen)
    let c4 := c3.setHeapIndex (c3.heapAt 0) (some 0)
    have hf34 : HeapFrame c3 c4 := HeapFrame.setHeapIndex c3 _ _ hb3
    have hf23 : HeapFrame c2 c3 := ⟨rfl, by simp [c3], rfl, fun _ => rfl⟩
    have hf4 : HeapFrame c1 c4 := (hf2.trans hf23).trans hf34
    have hres : (pfHeapPop c).2 = pfHeapDown c4 0 := if_pos h1
    have hnode4 (j : ℕ) : c4.node j =
        if j = last then { c2.node last with heapIndex := some 0 } else c2.node j := by
      have h : c4.node j = _ := node_setHeapIndex c3 (c3.heapAt 0) j (some 0) hb3
      rw [h, hat3, if_pos rfl]
      rfl
    have hat4 (p : ℕ) : c4.heapAt p = if p = 0 then last else c.heapAt p := hat3 p
    have hpl : Placed c4 (some (c.heapAt 0)) := by
      have hcount4 : c4.heapCount = c.heapCount-1 := rfl
      apply hp.replaceRoot h1 hcount4 rfl rfl hat4 hf4.closed
      · rw [hnode4, if_pos rfl]
      · intro j hj hjl
        rw [hnode4, if_neg hjl, hnode2 j hj]
    have hord : BinaryHeap.Ordered (c.heapCount-1) (heapKey c) := hf.ordered.take (by omega)
    have hdown : BinaryHeap.DownReady c4.heapCount (heapKey c4) 0 := by
      apply hord.replace_root
      intro p _ hp0
      unfold heapKey
      rw [hf4.key, hat4, if_neg hp0]
      rfl
    have hsift := pfHeapDownLoop_sifted c4.heapCount c4
      (hf4.indexed ⟨⟨hi.shape.1, hi.shape.2, hi.shape.3, hi.shape.4, hi.shape.5, hi.shape.6,
        hi.shape.7⟩,
        hi.2, hi.3, hi.4, hi.5, hi.6⟩) _ hpl 0 hdown (by omega)
    rw [hres]
    exact ⟨hf4.trans hsift.frame, hsift.frontier⟩

/-- Room for one more heap entry, unless memory is refused. -/
theorem pfReserveHeap_spec (c : Context) (hs : Shape c) (hc : c.heapCount ≤ c.heapCapacity) :
    (∃ memory, pfReserveHeap c = (false, { c with memory := memory })) ∨
    ∃ memory heap heapCapacity, pfReserveHeap c =
        (true, { c with memory := memory, heap := heap, heapCapacity := heapCapacity }) ∧
      heap.length = heapCapacity ∧ c.heapCount < heapCapacity ∧
      ∀ p < c.heapCount, heap.getD p 0 = c.heapAt p := by
  have hl := hs.heap
  unfold pfReserveHeap
  split_ifs with hfull
  · dsimp only
    generalize hg : pfGrowArray c.memory sizeofSize c.heapCapacity (c.heapCount+1) = r
    cases hr : r.1 with
    | none => exact Or.inl ⟨r.2, rfl⟩
    | some capacity =>
      have hge := (pfGrowArray_spec _ _ _ _ capacity (by rw [hg, hr])).1
      refine Or.inr ⟨r.2, reallocList c.heap capacity, capacity, rfl,
        reallocList_length _ _ (by omega), by omega, ?_⟩
      intro p hp
      exact getD_reallocList c.heap capacity p 0 (by omega)
  · exact Or.inr ⟨c.memory, c.heap, c.heapCapacity, rfl, hl, by omega, fun i _ => rfl⟩

/-- The metrics after a push. -/
def peakAfter (metrics : Metrics) (count : ℕ) : Metrics :=
  { metrics with
    peakFrontier := if count > metrics.peakFrontier then count else metrics.peakFrontier }

/-- `pf_heap_push` either fails for lack of memory or enters the node into the order. -/
theorem pfHeapPush_spec (c : Context) (hi : Indexed c) (node : ℕ) (hn : node < c.nodeCount)
    (hopen : (c.node node).closed = false) (hf : Frontier c (some node)) :
    (∃ memory, pfHeapPush c node = (false, { c with memory := memory })) ∨
    ∃ memory heap heapCapacity nodes, pfHeapPush c node = (true, { c with
        memory := memory, heap := heap, heapCapacity := heapCapacity,
        heapCount := c.heapCount+1, nodes := nodes,
        metrics := peakAfter c.metrics (c.heapCount+1) }) ∧
      Indexed { c with
        memory := memory, heap := heap, heapCapacity := heapCapacity,
        heapCount := c.heapCount+1, nodes := nodes,
        metrics := peakAfter c.metrics (c.heapCount+1) } ∧
      Frontier { c with
        memory := memory, heap := heap, heapCapacity := heapCapacity,
        heapCount := c.heapCount+1, nodes := nodes,
        metrics := peakAfter c.metrics (c.heapCount+1) } none ∧
      ∀ i, (nodes.getD i default).erase = (c.node i).erase := by
  have hs := hi.shape
  have hp := hf.placed
  unfold pfHeapPush
  rcases pfReserveHeap_spec c hs hp.count_le with ⟨m, he⟩ | ⟨m, heap, cap, he, hl, hlt, hkeep⟩
  · exact Or.inl ⟨m, by rw [he]; rfl⟩
  · -- the node goes to the end of the heap, then learns its place, and then rises
    let c1 : Context := { c with
      memory := m, heap := heap.set c.heapCount node, heapCapacity := cap }
    have hat1 (p : ℕ) (h : p < c.heapCount) : c1.heapAt p = c.heapAt p := by
      rw [← hkeep p h]
      simp [c1, Context.heapAt, Nat.ne_of_gt h]
    have hatn : c1.heapAt c.heapCount = node := by
      have : c.heapCount < heap.length := by omega
      simp [c1, Context.heapAt, this]
    have hlen : node < c1.nodes.length := lt_of_lt_of_le hn hi.count_le_length
    let c2 := c1.setHeapIndex node (some c.heapCount)
    have hf12 : HeapFrame c1 c2 := HeapFrame.setHeapIndex c1 node _ hlen
    have hi1 : Indexed c1 := ⟨⟨hs.1, hs.2, hs.3, by simpa [c1] using hl, hs.5, hs.6, hs.7⟩,
      hi.2, hi.3, hi.4, hi.5, hi.6⟩
    have hi2 := hf12.indexed hi1
    let c3 : Context := { c2 with heapCount := c.heapCount+1 }
    have hi3 : Indexed c3 := ⟨⟨hi2.1.1, hi2.1.2, hi2.1.3, hi2.1.4, hi2.1.5, hi2.1.6, hi2.1.7⟩,
      hi2.2, hi2.3, hi2.4, hi2.5, hi2.6⟩
    have hnode (j : ℕ) : c3.node j =
        if j = node then { c.node node with heapIndex := some c.heapCount } else c.node j :=
      node_setHeapIndex c1 node j (some c.heapCount) hlen
    have hat (p : ℕ) : c3.heapAt p = c1.heapAt p := rfl
    have hpl : Placed c3 none := by
      have hcount3 : c3.heapCount = c.heapCount+1 := rfl
      apply hp.enter hn hcount3 hlt rfl hat1 hatn
      · rw [hnode, if_pos rfl]
        exact hopen
      · rw [hnode, if_pos rfl]
      · intro j hj
        rw [hnode, if_neg hj]
    have hup : BinaryHeap.UpReady c3.heapCount (heapKey c3) c.heapCount := by
      apply hf.ordered.append
      intro p h
      unfold heapKey
      rw [hat, hat1 p h, hnode, if_neg fun h' => hp.fresh p h (by rw [h'])]
    have hsift := pfHeapUpLoop_sifted c.heapCount c3 hi3 none hpl c.heapCount hup le_rfl
    have hfr := hsift.frame
    let c4 := pfHeapUpLoop c.heapCount c3 c.heapCount
    have hi4 : Indexed c4 := hfr.indexed hi3
    have hfront : Frontier c4 none := hsift.frontier
    have hrest : c4 = { c with
        memory := m, heap := c4.heap, heapCapacity := cap, heapCount := c.heapCount+1,
        nodes := c4.nodes } := hfr.rest
    refine Or.inr ⟨m, c4.heap, cap, c4.nodes, ?_, ?_, ?_, ?_⟩
    · rw [he]
      have hstep : (if c4.heapCount > c4.metrics.peakFrontier then
          { c4 with metrics := { c4.metrics with peakFrontier := c4.heapCount } } else c4) =
          { c4 with metrics := peakAfter c4.metrics c4.heapCount } := by
        unfold peakAfter
        split_ifs <;> rfl
      refine (congrArg (Prod.mk true) hstep).trans ?_
      rw [hrest]
    · rw [hrest] at hi4
      exact ⟨⟨hi4.1.1, hi4.1.2, hi4.1.3, hi4.1.4, hi4.1.5, hi4.1.6, hi4.1.7⟩,
        hi4.2, hi4.3, hi4.4, hi4.5, hi4.6⟩
    · rw [hrest] at hfront
      exact ⟨⟨hfront.1.1, hfront.1.2, hfront.1.3, hfront.1.4, hfront.1.5, hfront.1.6⟩, hfront.2⟩
    · intro i
      have h4 : (c4.node i).erase = (c3.node i).erase := hfr.erase i
      have h2 : (c2.node i).erase = (c1.node i).erase := hf12.erase i
      exact h4.trans h2

theorem node_setNode (c : Context) (i j : ℕ) (node : PfNode) (hi : i < c.nodes.length) :
    (c.setNode i node).node j = if j = i then node else c.node j := by
  unfold Context.setNode Context.node
  split_ifs with h
  · subst h
    simp [hi]
  · simp [Ne.symm h]

/-- Overwriting a node by one of the same state and sequence number. -/
theorem Indexed.setNode {c : Context} (hi : Indexed c) (i : ℕ) (node : PfNode)
    (h : i < c.nodeCount) (hs : node.state = (c.node i).state) (hq : node.sequence = i) :
    Indexed (c.setNode i node) := by
  have hnode := fun j => node_setNode c i j node (lt_of_lt_of_le h hi.count_le_length)
  apply hi.congr
  · simp
  · intro j hj
    have hj' := hnode j
    unfold Context.setNode Context.node at hj'
    rw [hj']
    split_ifs with hji
    · rw [hji]
      exact hs
    · rfl
  · intro j hj
    have hj' := hnode j
    unfold Context.setNode Context.node at hj'
    rw [hj']
    split_ifs with hji
    · rw [hji]
      exact hq
    · exact hi.sequence j hj

theorem nodeList_setNode {c : Context} (hi : Indexed c) (i : ℕ) (node : PfNode)
    (h : i < c.nodeCount) (hi' : Indexed (c.setNode i node)) :
    (c.setNode i node).nodeList = c.nodeList.set i node.erase := by
  have hnode := fun j => node_setNode c i j node (lt_of_lt_of_le h hi.count_le_length)
  apply nodeList_set hi hi' i node.erase h rfl
  · intro j _ hji
    rw [hnode, if_neg hji]
  · rw [hnode, if_pos rfl]

/-- Lowering the key of an open node, and the `pf_heap_up` that follows it. -/
theorem pfHeapUp_spec (c : Context) (hi : Indexed c) (hf : Frontier c none) (i : ℕ)
    (h : i < c.nodeCount) (node : PfNode) (hstate : node.state = (c.node i).state)
    (hseq : node.sequence = i) (hopen : (c.node i).closed = false) (hopen' : node.closed = false)
    (hindex : node.heapIndex = (c.node i).heapIndex)
    (hle : nodeKey node ≤ nodeKey (c.node i)) :
    Indexed (pfHeapUp (c.setNode i node) (node.heapIndex.getD 0)) ∧
      Frontier (pfHeapUp (c.setNode i node) (node.heapIndex.getD 0)) none ∧
      HeapFrame (c.setNode i node) (pfHeapUp (c.setNode i node) (node.heapIndex.getD 0)) := by
  have hp := hf.placed
  have hlen : i < c.nodes.length := lt_of_lt_of_le h hi.count_le_length
  obtain ⟨p, hlt, hat⟩ := hp.complete i h hopen (by simp)
  have hpos : node.heapIndex.getD 0 = p := by
    rw [hindex, ← hat, hp.index p hlt]
    rfl
  have hnode (j : ℕ) : (c.setNode i node).node j = if j = i then node else c.node j :=
    node_setNode c i j node hlen
  have hi' : Indexed (c.setNode i node) := hi.setNode i node h hstate hseq
  have hpl : Placed (c.setNode i node) none := by
    refine ⟨hp.count_le, hp.bound, ?_, ?_, hp.fresh, ?_⟩
    · intro q hq
      rw [hnode]
      split_ifs with hqi
      · rw [hindex, ← hqi]
        exact hp.index q hq
      · exact hp.index q hq
    · intro q hq
      rw [hnode]
      split_ifs with hqi
      · exact hopen'
      · exact hp.isOpen q hq
    · intro j hj ho hout
      apply hp.complete j hj _ hout
      by_cases hji : j = i
      · rw [hji]
        exact hopen
      · rwa [hnode, if_neg hji] at ho
  have hup : BinaryHeap.UpReady c.heapCount (heapKey (c.setNode i node)) p := by
    apply hf.ordered.decrease p hlt
    · intro q hq hqp
      unfold heapKey
      rw [hnode, if_neg]
      · rfl
      · intro hqi
        exact hqp (hp.heapAt_inj q p hq hlt (hqi.trans hat.symm))
    · have hat' : (c.setNode i node).heapAt p = i := hat
      unfold heapKey
      rw [hnode, if_pos hat', hat]
      exact hle
  have hsift := pfHeapUpLoop_sifted p (c.setNode i node) hi' none hpl p hup le_rfl
  rw [hpos]
  exact ⟨hsift.frame.indexed hi', hsift.frontier, hsift.frame⟩

end LibAtrinik.Pathfinding

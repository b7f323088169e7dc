import LibAtrinik.PathfindingHash

namespace LibAtrinik.Pathfinding

/-- A node without its place in the heap. -/
def PfNode.erase (node : PfNode) : PfNode := { node with heapIndex := none }

/-- The nodes that the counts of the context declare, in the order of their discovery. -/
def Context.nodeList (c : Context) : List PfNode := (c.nodes.take c.nodeCount).map PfNode.erase

theorem nodeList_length (c : Context) (h : c.nodeCount ≤ c.nodes.length) :
    c.nodeList.length = c.nodeCount := by
  simp [Context.nodeList, h]

theorem nodeAt_nodeList (c : Context) (i : ℕ) (h : c.nodeCount ≤ c.nodes.length)
    (hi : i < c.nodeCount) : nodeAt c.nodeList i = (c.node i).erase := by
  have hi' : i < c.nodes.length := by omega
  simp [nodeAt, Context.nodeList, Context.node, hi, hi']

/-- A list of nodes is the node list as soon as it agrees with it at every index. -/
theorem nodeList_eq (c : Context) (nodes : List PfNode) (h : c.nodeCount ≤ c.nodes.length)
    (hl : nodes.length = c.nodeCount)
    (hn : ∀ i < c.nodeCount, nodeAt nodes i = (c.node i).erase) : c.nodeList = nodes := by
  apply List.ext_getElem
  · rw [nodeList_length c h, hl]
  · intro i hi hi'
    have hlt : i < c.nodeCount := by rwa [nodeList_length c h] at hi
    have h1 := nodeAt_nodeList c i h hlt
    rw [← hn i hlt] at h1
    simpa [nodeAt, hi, hi'] using h1

theorem findState_some (nodes : List PfNode) (state : StateId) (i : ℕ) (hi : i < nodes.length)
    (hs : (nodeAt nodes i).state = state)
    (hu : ∀ j < nodes.length, (nodeAt nodes j).state = state → j = i) :
    findState nodes state = some i := by
  unfold findState
  rw [List.findIdx?_eq_some_iff_getElem]
  refine ⟨hi, by simpa [nodeAt, hi] using hs, ?_⟩
  intro j hj
  have hj' : j < nodes.length := by omega
  have hne : (nodeAt nodes j).state ≠ state := fun h => by
    have := hu j hj' h
    omega
  simpa [nodeAt, hj'] using hne

theorem findState_none (nodes : List PfNode) (state : StateId)
    (h : ∀ i < nodes.length, (nodeAt nodes i).state ≠ state) : findState nodes state = none := by
  unfold findState
  rw [List.findIdx?_eq_none_iff]
  intro node hn
  obtain ⟨i, hi, rfl⟩ := List.getElem_of_mem hn
  simpa [nodeAt, hi] using h i hi

theorem findState_eq_some (nodes : List PfNode) (state : StateId) (i : ℕ)
    (h : findState nodes state = some i) :
    i < nodes.length ∧ (nodeAt nodes i).state = state := by
  unfold findState at h
  rw [List.findIdx?_eq_some_iff_getElem] at h
  obtain ⟨hi, hs, _⟩ := h
  exact ⟨hi, by simpa [nodeAt, hi] using hs⟩

theorem findState_eq_none (nodes : List PfNode) (state : StateId)
    (h : findState nodes state = none) (i : ℕ) (hi : i < nodes.length) :
    (nodeAt nodes i).state ≠ state := by
  unfold findState at h
  rw [List.findIdx?_eq_none_iff] at h
  have := h nodes[i] (List.getElem_mem hi)
  simpa [nodeAt, hi] using this

theorem Indexed.count_le_length {c : Context} (hi : Indexed c) : c.nodeCount ≤ c.nodes.length := by
  rw [hi.shape.nodes]
  exact hi.count_le

theorem Indexed.length_eq {c : Context} (hi : Indexed c) :
    c.nodeList.length = c.nodeCount :=
  Pathfinding.nodeList_length c hi.count_le_length

theorem Indexed.nodeAt_eq {c : Context} (hi : Indexed c) (i : ℕ) (h : i < c.nodeCount) :
    nodeAt c.nodeList i = (c.node i).erase :=
  nodeAt_nodeList c i hi.count_le_length h

/-- The node list after one node has been added. -/
theorem nodeList_append {c c' : Context} (hi : Indexed c) (hi' : Indexed c') (node : PfNode)
    (hc : c'.nodeCount = c.nodeCount+1)
    (hold : ∀ i < c.nodeCount, (c'.node i).erase = (c.node i).erase)
    (hnew : (c'.node c.nodeCount).erase = node) : c'.nodeList = c.nodeList ++ [node] := by
  apply nodeList_eq _ _ hi'.count_le_length
  · simp [hi.length_eq, hc]
  · intro i hlt
    rw [hc] at hlt
    unfold nodeAt
    rcases Nat.lt_succ_iff_lt_or_eq.mp hlt with hlt' | rfl
    · have h1 := hi.nodeAt_eq i hlt'
      unfold nodeAt at h1
      rw [List.getD_append _ _ _ _ (by rw [hi.length_eq]; exact hlt'), h1, hold i hlt']
    · rw [List.getD_append_right _ _ _ _ (by rw [hi.length_eq]), hi.length_eq, Nat.sub_self, hnew]
      rfl

/-- The node list after one node has been overwritten. -/
theorem nodeList_set {c c' : Context} (hi : Indexed c) (hi' : Indexed c') (i : ℕ)
    (node : PfNode) (h : i < c.nodeCount) (hc : c'.nodeCount = c.nodeCount)
    (hold : ∀ j < c.nodeCount, j ≠ i → (c'.node j).erase = (c.node j).erase)
    (hnew : (c'.node i).erase = node) : c'.nodeList = c.nodeList.set i node := by
  apply nodeList_eq _ _ hi'.count_le_length
  · simp [hi.length_eq, hc]
  · intro j hlt
    rw [hc] at hlt
    have hj := hi.nodeAt_eq j hlt
    have hlen : j < c.nodeList.length := by rwa [hi.length_eq]
    unfold nodeAt at hj ⊢
    by_cases hji : j = i
    · subst hji
      simp [hlen, hnew]
    · rw [hold j hlt hji, ← hj]
      simp [Ne.symm hji]

/-- `pf_find_node` finds the node of a state that has one. -/
theorem pfFindNode_present (c : Context) (hi : Stored c) (i : ℕ) (h : i < c.nodeCount) :
    pfFindNode c (c.node i).state = some i := by
  have hhalf := hi.half
  have h0 : c.hashCapacity ≠ 0 := by omega
  obtain ⟨k, hk⟩ := hi.shape.power.resolve_left h0
  obtain ⟨d, he⟩ := LinearProbing.Holds.exists_endsAt hi.holds
    (by rw [Finset.card_range]; omega) (c.node i).state
  have hs := LinearProbing.Holds.endsAt_present hi.holds _ d he i (Finset.mem_range.mpr h) rfl
    (fun j hj hst => hi.distinct j (Finset.mem_range.mp hj) i h hst)
  rw [← pfHashSlot_eq c k hk _ d he, slot_eq_some] at hs
  simp only [pfFindNode, if_neg h0, hs]
  simp

/-- `pf_find_node` finds nothing for a state that has no node. -/
theorem pfFindNode_absent (c : Context) (hi : Stored c) (state : StateId)
    (h : ∀ i < c.nodeCount, (c.node i).state ≠ state) : pfFindNode c state = none := by
  unfold pfFindNode
  by_cases h0 : c.hashCapacity = 0
  · rw [if_pos h0]
  · have hhalf := hi.half
    obtain ⟨k, hk⟩ := hi.shape.power.resolve_left h0
    obtain ⟨d, he⟩ := LinearProbing.Holds.exists_endsAt hi.holds
      (by rw [Finset.card_range]; omega) state
    have hs := LinearProbing.Holds.endsAt_absent hi.holds _ d he
      (fun i hj => h i (Finset.mem_range.mp hj))
    rw [← pfHashSlot_eq c k hk _ d he, slot_eq_none] at hs
    simp only [if_neg h0, hs, if_true]

theorem Stored.find_iff {c : Context} (hi : Stored c) (s : StateId) (i : ℕ) :
    pfFindNode c s = some i ↔ i < c.nodeCount ∧ (c.node i).state = s := by
  constructor
  · intro h
    by_cases hex : ∃ j < c.nodeCount, (c.node j).state = s
    · obtain ⟨j, hj, rfl⟩ := hex
      rw [pfFindNode_present c hi j hj] at h
      exact Option.some.inj h ▸ ⟨hj, rfl⟩
    · push Not at hex
      rw [pfFindNode_absent c hi s hex] at h
      cases h
  · rintro ⟨hlt, rfl⟩
    exact pfFindNode_present c hi i hlt

theorem Stored.find_none_iff {c : Context} (hi : Stored c) (s : StateId) :
    pfFindNode c s = none ↔ ¬ ∃ i < c.nodeCount, (c.node i).state = s := by
  rw [Option.eq_none_iff_forall_ne_some]
  constructor
  · intro h ⟨i, hfound⟩
    exact h i ((hi.find_iff s i).mpr hfound)
  · intro h i hsome
    exact h ⟨i, (hi.find_iff s i).mp hsome⟩

theorem pfFindNode_eq (c : Context) (hi : Indexed c) (state : StateId) :
    pfFindNode c state = findState c.nodeList state := by
  by_cases h : ∃ i < c.nodeCount, (c.node i).state = state
  · obtain ⟨i, hlt, rfl⟩ := h
    rw [pfFindNode_present c hi.stored i hlt, findState_some c.nodeList _ i]
    · rwa [hi.length_eq]
    · rw [hi.nodeAt_eq i hlt]
      rfl
    · intro j hj hs
      rw [hi.length_eq] at hj
      rw [hi.nodeAt_eq j hj] at hs
      exact hi.distinct j hj i hlt hs
  · push Not at h
    rw [pfFindNode_absent c hi.stored state h, findState_none]
    intro i hlt
    rw [hi.length_eq] at hlt
    rw [hi.nodeAt_eq i hlt]
    exact h i hlt

/-- The doubling loop reaches the requested capacity. -/
theorem pfGrowLoop_ge (minimum fuel next : ℕ) (hn : 0 < next) (hf : sizeMax/2 < next*2^fuel) :
    minimum ≤ pfGrowLoop minimum (fuel+1) next := by
  induction fuel generalizing next with
  | zero =>
    simp only [pfGrowLoop]
    split_ifs <;> omega
  | succ fuel ih =>
    rw [pfGrowLoop]
    split_ifs with h1 h2
    · exact le_rfl
    · apply ih (next*2) (by omega)
      rwa [Nat.mul_assoc, ← Nat.pow_succ']
    · omega

theorem pfMultiplySize_spec (left right product : ℕ) (h : pfMultiplySize left right = some product) :
    left*right ≤ sizeMax := by
  unfold pfMultiplySize at h
  split_ifs at h with hover
  by_cases h0 : left = 0
  · rw [h0, Nat.zero_mul]
    exact Nat.zero_le _
  · have hle : right ≤ sizeMax/left := by
      by_contra hgt
      exact hover ⟨h0, by omega⟩
    rw [Nat.mul_comm]
    exact (Nat.le_div_iff_mul_le (Nat.pos_of_ne_zero h0)).mp hle

/-- A request that is granted yields at least the capacity that was asked for, and the size of
the array is representable. -/
theorem pfGrowArray_spec (memory : ℕ → Bool) (elementSize capacity minimum next : ℕ)
    (h : (pfGrowArray memory elementSize capacity minimum).1 = some next) :
    minimum ≤ next ∧ next*elementSize ≤ sizeMax := by
  unfold pfGrowArray at h
  dsimp only at h
  split at h
  · cases h
  · rename_i product hproduct
    split at h
    · rw [← Option.some.inj h]
      refine ⟨?_, pfMultiplySize_spec _ _ product hproduct⟩
      have hpos : 1 ≤ if capacity = 0 then pfInitialCapacity else capacity := by
        unfold pfInitialCapacity
        split_ifs <;> omega
      apply pfGrowLoop_ge minimum 63 _ hpos
      calc sizeMax/2 < 1*2^63 := by decide
        _ ≤ _ := Nat.mul_le_mul_right _ hpos
    · cases h

theorem reallocList_length {α : Type} [Inhabited α] (xs : List α) (capacity : ℕ)
    (h : xs.length ≤ capacity) : (reallocList xs capacity).length = capacity := by
  simp only [reallocList, List.length_append, List.length_replicate]
  omega

theorem getD_reallocList {α : Type} [Inhabited α] (xs : List α) (capacity i : ℕ) (d : α)
    (h : i < xs.length) : (reallocList xs capacity).getD i d = xs.getD i d := by
  simp [reallocList, List.getD_eq_getElem?_getD, List.getElem?_append_left h]

/-- `pf_add_node` makes room for a node, unless memory is refused, and keeps the nodes. -/
theorem pfReserveNode_spec (c : Context) (hs : Shape c) (hc : c.nodeCount ≤ c.nodeCapacity) :
    (∃ memory, pfReserveNode c = (false, { c with memory := memory })) ∨
    ∃ memory nodes nodeCapacity, pfReserveNode c =
        (true, { c with memory := memory, nodes := nodes, nodeCapacity := nodeCapacity }) ∧
      nodes.length = nodeCapacity ∧ c.nodeCount < nodeCapacity ∧
      (∀ i < c.nodeCount, nodes.getD i default = c.node i) ∧
      nodeCapacity*sizeofPfNode ≤ sizeMax := by
  have hl := hs.nodes
  unfold pfReserveNode
  split_ifs with hfull
  · dsimp only
    generalize hg : pfGrowArray c.memory sizeofPfNode c.nodeCapacity (c.nodeCount+1) = r
    cases hr : r.1 with
    | none => exact Or.inl ⟨r.2, rfl⟩
    | some capacity =>
      obtain ⟨hge, hbytes⟩ := pfGrowArray_spec _ _ _ _ capacity (by rw [hg, hr])
      refine Or.inr ⟨r.2, reallocList c.nodes capacity, capacity, rfl,
        reallocList_length _ _ (by omega), by omega, ?_, hbytes⟩
      intro i hi
      exact getD_reallocList c.nodes capacity i default (by omega)
  · exact Or.inr ⟨c.memory, c.nodes, c.nodeCapacity, rfl, hl, by omega, fun i _ => rfl, hs.bytes⟩

/-- `pf_add_node` either fails for lack of memory, with the nodes as they were, or appends
the node. A table that has been enlarged before the failure holds the nodes as well. -/
theorem pfAddNode_stored (c : Context) (hi : Stored c) (node : PfNode)
    (habs : ∀ i < c.nodeCount, (c.node i).state ≠ node.state) :
    (∃ memory hash hashCapacity, pfAddNode c node =
        (none, { c with memory := memory, hash := hash, hashCapacity := hashCapacity }) ∧
      Stored { c with memory := memory, hash := hash, hashCapacity := hashCapacity }) ∨
    ∃ memory hash hashCapacity nodes nodeCapacity, pfAddNode c node = (some c.nodeCount,
        { c with memory := memory, hash := hash, hashCapacity := hashCapacity, nodes := nodes,
                 nodeCapacity := nodeCapacity, nodeCount := c.nodeCount+1 }) ∧
      Stored { c with memory := memory, hash := hash, hashCapacity := hashCapacity,
                      nodes := nodes, nodeCapacity := nodeCapacity, nodeCount := c.nodeCount+1 } ∧
      nodes.getD c.nodeCount default = node ∧
      ∀ i < c.nodeCount, nodes.getD i default = c.node i := by
  have hs := hi.shape
  unfold pfAddNode
  rcases pfPrepareHash_spec c hi with ⟨m, he⟩ | ⟨m, hash, cap, he, hl, ⟨k, hk⟩, hroom, hh⟩
  · exact Or.inl ⟨m, c.hash, c.hashCapacity, by simp [he],
      ⟨⟨hs.1, hs.2, hs.3, hs.4, hs.5, hs.6, hs.7⟩, hi.count_le, hi.half, hi.distinct, hi.holds⟩⟩
  · let c1 : Context := { c with memory := m, hash := hash, hashCapacity := cap }
    have hs1 : Shape c1 := ⟨hs.nodes, hl, Or.inr ⟨k, hk⟩, hs.heap, hs.path, hs.reachable, hs.bytes⟩
    rcases pfReserveNode_spec c1 hs1 hi.count_le with ⟨m', he'⟩ |
      ⟨m', nodes, ncap, he', hnl, hlt, hkeep, hbytes⟩
    · -- the table may have grown before the node array could not
      have hhalf : 2*c.nodeCount ≤ cap := by omega
      refine Or.inl ⟨m', hash, cap, ?_, ⟨hs1.1, hs1.2, hs1.3, hs1.4, hs1.5, hs1.6, hs1.7⟩,
        hi.count_le, hhalf, hi.distinct, hh⟩
      simp only [he, he', c1] at he' ⊢
      simp
    · -- the context in which the new node is entered into the table
      let c2 : Context := { c1 with
        memory := m'
        nodes := nodes.set c.nodeCount node
        nodeCapacity := ncap
        nodeCount := c.nodeCount+1 }
      have hnew : c2.node c.nodeCount = node := by
        have hlt' : c.nodeCount < nodes.length := by rw [hnl]; exact hlt
        simp [c2, Context.node, hlt']
      have hold (i : ℕ) (hlt : i < c.nodeCount) : c2.node i = c.node i := by
        have hk' : nodes.getD i default = c.node i := hkeep i hlt
        rw [← hk']
        simp [c2, Context.node, Nat.ne_of_gt hlt]
      have hdist : DistinctStates c2 (c.nodeCount+1) := by
        intro i hi' j hj' heq
        rcases Nat.lt_succ_iff_lt_or_eq.mp hi' with hi' | rfl <;>
          rcases Nat.lt_succ_iff_lt_or_eq.mp hj' with hj' | rfl
        · rw [hold i hi', hold j hj'] at heq
          exact hi.distinct i hi' j hj' heq
        · rw [hold i hi', hnew] at heq
          exact absurd heq (habs i hi')
        · rw [hold j hj', hnew] at heq
          exact absurd heq.symm (habs j hj')
        · rfl
      have hhold : HashHolds c2 c.nodeCount :=
        hh.congr c2.nodes fun i hlt => congrArg PfNode.state (hold i hlt)
      have henter := hhold.enter k hk (by show hash.length = cap; exact hl)
        (by show c.nodeCount < cap; omega) hdist
      refine Or.inr ⟨m', hash.set (pfHashSlot c2 node.state) (c.nodeCount+1), cap,
        nodes.set c.nodeCount node, ncap, ?_, ?_, hnew, hold⟩
      · simp only [he, c1] at he' ⊢
        simp only [he']
        rfl
      · rw [hnew] at henter
        exact ⟨⟨by simpa using hnl, by simpa using hl, Or.inr ⟨k, hk⟩, hs.heap, hs.path,
          hs.reachable, hbytes⟩, hlt, hroom, hdist, henter⟩

/-- A node that has its index as its sequence number keeps the discovery order. -/
theorem pfAddNode_spec (c : Context) (hi : Indexed c) (node : PfNode)
    (habs : ∀ i < c.nodeCount, (c.node i).state ≠ node.state)
    (hseq : node.sequence = c.nodeCount) :
    (∃ memory hash hashCapacity, pfAddNode c node =
        (none, { c with memory := memory, hash := hash, hashCapacity := hashCapacity }) ∧
      Shape { c with memory := memory, hash := hash, hashCapacity := hashCapacity }) ∨
    ∃ memory hash hashCapacity nodes nodeCapacity, pfAddNode c node = (some c.nodeCount,
        { c with memory := memory, hash := hash, hashCapacity := hashCapacity, nodes := nodes,
                 nodeCapacity := nodeCapacity, nodeCount := c.nodeCount+1 }) ∧
      Indexed { c with memory := memory, hash := hash, hashCapacity := hashCapacity,
                       nodes := nodes, nodeCapacity := nodeCapacity, nodeCount := c.nodeCount+1 } ∧
      nodes.getD c.nodeCount default = node ∧
      ∀ i < c.nodeCount, nodes.getD i default = c.node i := by
  rcases pfAddNode_stored c hi.stored node habs with
    ⟨m, hash, cap, he, hs⟩ | ⟨m, hash, cap, nodes, ncap, he, hs, hnew, hold⟩
  · exact Or.inl ⟨m, hash, cap, he, hs.shape⟩
  · refine Or.inr ⟨m, hash, cap, nodes, ncap, he, ?_, hnew, hold⟩
    refine ⟨hs.shape, hs.count_le, hs.half, hs.distinct, ?_, hs.holds⟩
    intro i hi'
    rcases Nat.lt_succ_iff_lt_or_eq.mp hi' with hi' | rfl
    · exact (congrArg PfNode.sequence (hold i hi')).trans (hi.sequence i hi')
    · exact (congrArg PfNode.sequence hnew).trans hseq

end LibAtrinik.Pathfinding

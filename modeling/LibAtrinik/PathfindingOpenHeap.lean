import LibAtrinik.PathfindingEvents

namespace LibAtrinik.Pathfinding

variable {σ : Type}

/-- A node that has been generated and is not closed. -/
def NodeOpen (c : Context) (i : ℕ) : Prop := i < c.nodeCount ∧ (c.node i).closed = false

/-- `heap[0..heap_count)` lists each open node but `out` exactly once and nothing else, each node
knows its place in it, and no node precedes its parent in the heap. -/
structure OpenHeap (c : Context) (out : Option ℕ) : Prop where
  once : ∀ i, NodeOpen c i → out ≠ some i → ∃! p, p < c.heapCount ∧ c.heapAt p = i
  listed : ∀ p < c.heapCount, NodeOpen c (c.heapAt p) ∧ out ≠ some (c.heapAt p)
  index : ∀ p < c.heapCount, (c.node (c.heapAt p)).heapIndex = some p
  ordered : ∀ p < c.heapCount, 0 < p →
    pfNodeBefore c (c.heapAt p) (c.heapAt ((p-1)/2)) = false

theorem Frontier.openHeap {c : Context} {out : Option ℕ} (hf : Frontier c out) :
    OpenHeap c out := by
  have hp := hf.placed
  refine ⟨?_, fun p hlt => ⟨⟨hp.bound p hlt, hp.isOpen p hlt⟩, hp.fresh p hlt⟩, hp.index, ?_⟩
  · rintro i ⟨hlt, hopen⟩ hout
    obtain ⟨p, hlt', he⟩ := hp.complete i hlt hopen hout
    exact ⟨p, ⟨hlt', he⟩, fun q hq => hp.heapAt_inj q p hq.1 hlt' (hq.2.trans he.symm)⟩
  · intro p hlt h0
    have hle : heapKey c ((p-1)/2) ≤ heapKey c p := hf.ordered p h0 hlt
    rw [Bool.eq_false_iff]
    exact fun hb => absurd ((pfNodeBefore_iff c _ _).mp hb) (not_lt.mpr hle)

/-- The least open node precedes every other one. -/
theorem IsNext.before {c : Context} (hi : Indexed c) {i : ℕ} (h : IsNext c.nodeList i) :
    NodeOpen c i ∧ ∀ j, NodeOpen c j → j ≠ i → pfNodeBefore c i j = true := by
  have hopen := (hi.isOpen_iff i).mp h.1
  -- two nodes with one key would have one sequence number
  refine ⟨hopen, fun j hj hne => (pfNodeBefore_iff c i j).mpr ?_⟩
  have hle := h.2 j (hi.length_eq.symm ▸ hj.1) ((hi.isOpen_iff j).mpr hj)
  rw [hi.nodeAt_eq i hopen.1, hi.nodeAt_eq j hj.1] at hle
  refine lt_of_le_of_ne hle fun he => hne ?_
  have hs := nodeKey_sequence _ _ he
  exact (hi.sequence j hj.1).symm.trans (hs.symm.trans (hi.sequence i hopen.1))

/-- At every point of a search the heap lists the open nodes, apart from a node that is set aside,
and `pf_heap_pop` takes the one that precedes all others. -/
theorem heap_lists_open_nodes (c : Context) (hc : LeftBehind c) (fuel : ℕ)
    (adapter : Option (Adapter σ)) (start : StateId) (options : Option Options) (world : σ)
    (front back : List SearchPoint) (p : SearchPoint)
    (h : atrinikPfSearchTrace fuel c adapter start options world = front ++ p :: back) :
    (∃ out, OpenHeap p.2 out ∧ ∀ i, out = some i → Aside p i) ∧
    ∀ i c' rest, back = (.taken i, c') :: rest → pfHeapPop p.2 = (i, c') ∧ OpenHeap p.2 none ∧
      NodeOpen p.2 i ∧ ∀ j, NodeOpen p.2 j → j ≠ i → pfNodeBefore p.2 i j = true := by
  refine ⟨?_, ?_⟩
  · have hp : p ∈ atrinikPfSearchTrace fuel c adapter start options world := by
      rw [h]
      exact List.mem_append_right _ List.mem_cons_self
    obtain ⟨_, out, hf, hout⟩ := listed_of_mem hc.shape fuel adapter start options world p hp
    exact ⟨out, hf.openHeap, hout⟩
  · rintro i c' rest rfl
    obtain ⟨hpop, hi, hf, hnext⟩ :=
      (next_of_split hc.shape fuel adapter start options world front rest p _ h).taken i rfl
    exact ⟨hpop, hf.openHeap, hnext.before hi⟩

theorem heap_lists_open_nodes_detour :
    ∃ c c', pfHeapPop c = (2, c') ∧ OpenHeap c none ∧ NodeOpen c 1 ∧ pfNodeBefore c 2 1 = true := by
  have h := (heap_lists_open_nodes (atrinikPfContextCreate fun _ => true) (.created _) 9
    (some (detour (· = 4) fun _ => 0).toAdapter) 0 none 0 [_, _, _, _, _, _] _ (.ready, _) rfl).2
    2 _ _ rfl
  exact ⟨_, _, h.1, h.2.1, ⟨by decide, by decide⟩,
    h.2.2.2 1 ⟨by decide, by decide⟩ (by decide)⟩

/-- A search whose start is its goal, up to the end. -/
def foundAtOnce : List SearchPoint :=
  atrinikPfSearchTrace 1 (atrinikPfContextCreate fun _ => true)
    (some (detour (· = 0) fun _ => 0).toAdapter) 0 none 0

/-- The node that has been found is left open and out of the heap. -/
theorem heap_lists_open_nodes_found :
    ∃ p ∈ foundAtOnce, p.1 = .finished (some 0) ∧ NodeOpen p.2 0 ∧ p.2.heapCount = 0 ∧
      ¬OpenHeap p.2 none := by
  have hlast : foundAtOnce.getLast?.map (fun p =>
      (p.1, p.2.nodeCount, (p.2.node 0).closed, p.2.heapCount)) =
      some (.finished (some 0), 1, false, 0) := by decide
  obtain ⟨p, hp, he⟩ := Option.map_eq_some_iff.mp hlast
  obtain ⟨hevent, hcount, hclosed, hheap⟩ :
      p.1 = .finished (some 0) ∧ p.2.nodeCount = 1 ∧ (p.2.node 0).closed = false ∧
        p.2.heapCount = 0 := by simpa using he
  have hopen : NodeOpen p.2 0 := ⟨by rw [hcount]; exact Nat.one_pos, hclosed⟩
  refine ⟨p, List.mem_of_getLast? hp, hevent, hopen, hheap, fun h => ?_⟩
  obtain ⟨q, ⟨hlt, _⟩, _⟩ := h.once 0 hopen (by simp)
  rw [hheap] at hlt
  exact Nat.not_lt_zero q hlt

end LibAtrinik.Pathfinding

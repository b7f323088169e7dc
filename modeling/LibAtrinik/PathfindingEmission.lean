import LibAtrinik.PathfindingEmitSearch

namespace LibAtrinik.Pathfinding

variable {σ : Type} {options : Options} {active : ℕ} {c c' : Context}

/-- What a node owes to the transition that set it. -/
structure Link where
  state : StateId
  cost : ℕ
  data : TransitionData
  parent : Option ℕ
deriving DecidableEq, Repr

def PfNode.link (node : PfNode) : Link := ⟨node.state, node.cost, node.transitionData, node.parent⟩

theorem link_of_erase {a b : PfNode} (h : a.erase = b.erase) : a.link = b.link := by
  have hlink := congrArg PfNode.link h
  exact hlink

/-- The nodes are linked as before. -/
structure LinksKept (c c' : Context) : Prop where
  count : c'.nodeCount = c.nodeCount
  link : ∀ i < c.nodeCount, (c'.node i).link = (c.node i).link

/-- Transition `t` of the node `active` gives node `k` its cost, which is new or was greater. -/
structure LinkSet (algorithm : Algorithm) (active k : ℕ) (t : Transition) (c c' : Context) :
    Prop where
  place : (k = c.nodeCount ∧ c'.nodeCount = c.nodeCount+1) ∨
    (k < c.nodeCount ∧ c'.nodeCount = c.nodeCount ∧
      (c.node active).cost+stepCost algorithm t < (c.node k).cost)
  bound : active < c.nodeCount
  link : (c'.node k).link =
    ⟨t.state, (c.node active).cost+stepCost algorithm t, t.data, some active⟩
  other : ∀ i < c.nodeCount, i ≠ k → (c'.node i).link = (c.node i).link

theorem LinksKept.refl (c : Context) : LinksKept c c := ⟨rfl, fun _ _ => rfl⟩

theorem LinksKept.of_erase (hn : c'.nodeCount = c.nodeCount)
    (h : ∀ i < c.nodeCount, (c'.node i).erase = (c.node i).erase) : LinksKept c c' :=
  ⟨hn, fun i hi => link_of_erase (h i hi)⟩

/-- The context after an emission. The heap lists the open nodes, unless memory for it has been
refused; then the search has been stopped, and the heap lists the open nodes but one. -/
structure Emission (algorithm : Algorithm) (active : ℕ) (transition : Option Transition)
    (c c' : Context) : Prop where
  indexed : Indexed c'
  frontier : ∃ out, Frontier c' out ∧ (out = none ∨ OutOfMemory c')
  links : LinksKept c c' ∨ ∃ t k, transition = some t ∧ LinkSet algorithm active k t c c'

/-- The search is stopped before a node is touched. -/
theorem Emission.stop (h : Running true options (some active) c) (transition : Option Transition)
    (status : Status) (termination : Termination) :
    Emission options.algorithm active transition c (pfStop c status termination) where
  indexed := h.indexed.control rfl
  frontier := ⟨none, (h.frontier rfl).control rfl, Or.inl rfl⟩
  links := Or.inl ⟨rfl, fun _ _ => rfl⟩

/-- The context counts the transition first. -/
theorem Emission.examined {transition : Option Transition}
    (h : Emission options.algorithm active transition c.countExamined c') :
    Emission options.algorithm active transition c c' := by
  refine ⟨h.indexed, h.frontier, ?_⟩
  rcases h.links with hk | ⟨t, k, ht, hk⟩
  · exact Or.inl ⟨hk.count, hk.link⟩
  · exact Or.inr ⟨t, k, ht, hk.place, hk.bound, hk.link, hk.other⟩

/-- A node for a state that has none. -/
theorem pfEmitNew_emitted (adapter : Adapter σ) (h : Running true options (some active) c)
    (t : Transition) (world : σ) (hfind : pfFindNode c t.state = none) :
    Emission options.algorithm active (some t) c (pfEmitNew adapter c world t
      ((c.node active).cost+stepCost options.algorithm t)).2.1 := by
  have hi := h.indexed
  have hf := h.frontier rfl
  have hp := hf.placed
  have habs := pfFindNode_eq_none c hi _ hfind
  unfold pfEmitNew
  by_cases hgen : spent c.options.maxGenerated c.metrics.generated = true
  · simp only [if_pos hgen]
    exact .stop h _ _ _
  by_cases hfull : (!pfFrontierAvailable c) = true
  · simp only [if_neg hgen, if_pos hfull]
    exact .stop h _ _ _
  simp only [if_neg hgen, if_neg hfull, h.active_eq]
  generalize scoreState adapter c.options.algorithm world t.state = score
  let node : PfNode := {
    state := t.state, cost := (c.node active).cost+stepCost options.algorithm t
    heuristic := score.1
    priority := pfPriority c.options.algorithm
      ((c.node active).cost+stepCost options.algorithm t) score.1
    transitionData := t.data, parent := some active, sequence := c.nodeCount }
  rcases pfAddNode_stored c hi.stored node habs with
    ⟨m, hash, cap, he, hst⟩ | ⟨m, hash, cap, nodes, ncap, he, hst, hnew, hold⟩
  · -- the node is not stored, but the table may have grown
    rw [he]
    refine ⟨?_, ⟨none, ?_, Or.inl rfl⟩, Or.inl ⟨rfl, fun _ _ => rfl⟩⟩
    · exact (Indexed.mk hst.shape hst.count_le hst.half hst.distinct hi.sequence hst.holds).control
        rfl
    · exact ⟨⟨hp.1, hp.2, hp.3, hp.4, hp.5, hp.6⟩, hf.ordered⟩
  · rw [he]
    dsimp only
    let c2 : Context := { c with
      memory := m, hash := hash, hashCapacity := cap, nodes := nodes, nodeCapacity := ncap,
      nodeCount := c.nodeCount+1
      metrics := { c.metrics with generated := c.metrics.generated+1 } }
    have hseq : ∀ i < c.nodeCount+1, (c2.node i).sequence = i := by
      intro i hlt
      rcases Nat.lt_succ_iff_lt_or_eq.mp hlt with hlt | rfl
      · exact (congrArg PfNode.sequence (hold i hlt)).trans (hi.sequence i hlt)
      · exact congrArg PfNode.sequence hnew
    have hi2 : Indexed c2 :=
      (Indexed.mk hst.shape hst.count_le hst.half hst.distinct hseq hst.holds).control rfl
    obtain ⟨best, rank, hcons, _, _, _⟩ := pfConsiderPartial_spec adapter c2 hi2
      (fun i hb => Nat.lt_succ_of_lt (h.best_lt i hb)) score.2 c.nodeCount (Nat.lt_succ_self _)
    rw [hcons]
    let c3 : Context := { c2 with partialNode := best, partialRank := rank }
    have hi3 : Indexed c3 := hi2.control rfl
    have hf3 : Frontier c3 (some c.nodeCount) := hf.append rfl rfl rfl rfl hold
    have hopen : (c3.node c.nodeCount).closed = false := congrArg PfNode.closed hnew
    -- whether the push succeeds or not, the new node is linked
    have hset (c' : Context) (hn : c'.nodeCount = c.nodeCount+1)
        (herase : ∀ i, (c'.node i).erase = (c3.node i).erase) :
        LinkSet options.algorithm active c.nodeCount t c c' := by
      refine ⟨Or.inl ⟨rfl, hn⟩, h.active_lt active rfl, ?_, ?_⟩
      · exact (link_of_erase (herase c.nodeCount)).trans (congrArg PfNode.link hnew)
      · intro i hlt _
        exact (link_of_erase (herase i)).trans (congrArg PfNode.link (hold i hlt))
    rcases pfHeapPush_spec c3 hi3 c.nodeCount (Nat.lt_succ_self _) hopen hf3 with
      ⟨m', hpush⟩ | ⟨m', heap, hcap, nodes', hpush, hi4, hf4, herase⟩
    · rw [hpush]
      have hoom : OutOfMemory (pfStop { c3 with memory := m' } .outOfMemory .outOfMemory) :=
        .stop (hi3.shape.control rfl)
      exact ⟨hi3.control rfl, ⟨_, hf3.control rfl, Or.inr hoom⟩,
        Or.inr ⟨t, _, rfl, hset _ rfl fun _ => rfl⟩⟩
    · rw [hpush]
      exact ⟨hi4, ⟨none, hf4, Or.inl rfl⟩, Or.inr ⟨t, _, rfl, hset _ rfl herase⟩⟩

/-- A cheaper way to a node that there is. -/
theorem pfEmitImproved_emitted (adapter : Adapter σ) (h : Running true options (some active) c)
    (t : Transition) (i : ℕ) (world : σ) (hlt : i < c.nodeCount)
    (hstate : (c.node i).state = t.state)
    (hcost : (c.node active).cost+stepCost options.algorithm t < (c.node i).cost) :
    Emission options.algorithm active (some t) c (pfEmitImproved adapter c world t
      ((c.node active).cost+stepCost options.algorithm t) i).2.1 := by
  have hi := h.indexed
  have hlen : i < c.nodes.length := lt_of_lt_of_le hlt hi.count_le_length
  unfold pfEmitImproved
  by_cases hfull : ((c.node i).closed && !pfFrontierAvailable c) = true
  · rw [if_pos hfull]
    exact .stop h _ _ _
  rw [if_neg hfull, h.options_eq, h.active_eq]
  let node := (c.node i).improved options.algorithm
    ((c.node active).cost+stepCost options.algorithm t) t (some active)
  have hi1 : Indexed (c.setNode i node) := hi.setNode i node hlt rfl (hi.sequence i hlt)
  obtain ⟨best, rank, hcons, hblt, _, _⟩ := pfConsiderPartial_spec adapter (c.setNode i node) hi1
    h.best_lt world i hlt
  -- the context from which the heap operation starts, before the node is overwritten
  let c0 : Context := { c with partialNode := best, partialRank := rank }
  have h0 : Running true options (some active) c0 := h.control rfl rfl rfl rfl hblt rfl
  have hc2 : (pfConsiderPartial adapter (c.setNode i ((c.node i).improved options.algorithm
      ((c.node active).cost+stepCost options.algorithm t) t (some active))) world i).1 =
      c0.setNode i node := hcons
  have hnode (node' : PfNode) (j : ℕ) :
      (c0.setNode i node').node j = if j = i then node' else c.node j :=
    node_setNode c0 i j node' hlen
  have hnode2 : (c0.setNode i node).node i = node := by rw [hnode, if_pos rfl]
  have hlink : node.link = ⟨t.state, (c.node active).cost+stepCost options.algorithm t, t.data,
      some active⟩ := by
    rw [← hstate]
    rfl
  -- the node is linked, whether it is open or closed before and after
  have hset (c' : Context) (node' : PfNode) (hnode' : node'.link = node.link)
      (hn : c'.nodeCount = c.nodeCount)
      (herase : ∀ j, (c'.node j).erase = ((c0.setNode i node').node j).erase) :
      LinkSet options.algorithm active i t c c' := by
    refine ⟨Or.inr ⟨hlt, hn, hcost⟩, h.active_lt active rfl, ?_, ?_⟩
    · rw [link_of_erase (herase i), hnode, if_pos rfl, hnode', hlink]
    · intro j _ hji
      rw [link_of_erase (herase j), hnode, if_neg hji]
  simp only [hc2, hnode2]
  have hnc : node.closed = (c.node i).closed := rfl
  rw [hnc]
  cases hcl : (c.node i).closed with
  | false =>
    simp only [Bool.false_eq_true, if_false]
    have hle : nodeKey node ≤ nodeKey (c0.node i) := by
      apply nodeKey_mono node (c0.node i) _ rfl rfl
      have hprio : (c0.node i).priority = _ := h.priority rfl i hlt
      rw [hprio]
      exact pfPriority_mono _ _ _ _ hcost.le
    obtain ⟨hi', hf', hframe⟩ := pfHeapUp_spec c0 h0.indexed (h0.frontier rfl) i hlt node rfl
      (hi.sequence i hlt) hcl hcl rfl hle
    have hn : (pfHeapUp (c0.setNode i node) (node.heapIndex.getD 0)).nodeCount = c.nodeCount := by
      rw [hframe.rest]
      rfl
    exact ⟨hi', ⟨none, hf', Or.inl rfl⟩, Or.inr ⟨t, i, rfl, hset _ node rfl hn hframe.erase⟩⟩
  | true =>
    simp only [if_true]
    have hset2 : (c0.setNode i node).setNode i node.reopened = c0.setNode i node.reopened := by
      simp [Context.setNode]
    rw [hset2]
    have hi2 : Indexed (c0.setNode i node.reopened) :=
      h0.indexed.setNode i node.reopened hlt rfl (hi.sequence i hlt)
    have hf2 : Frontier (c0.setNode i node.reopened) (some i) :=
      (h0.frontier rfl).reopen i hcl rfl rfl rfl rfl fun j hji => by
        rw [hnode, if_neg hji]
        rfl
    have hopen : ((c0.setNode i node.reopened).node i).closed = false := by
      rw [hnode, if_pos rfl]
      rfl
    rcases pfHeapPush_spec _ hi2 i hlt hopen hf2 with
      ⟨m, hpush⟩ | ⟨m, heap, cap, nodes, hpush, hi', hf', herase⟩
    · rw [hpush]
      have hoom : OutOfMemory
          (pfStop { c0.setNode i node.reopened with memory := m } .outOfMemory .outOfMemory) :=
        .stop (hi2.shape.control rfl)
      exact ⟨hi2.control rfl, ⟨_, hf2.control rfl, Or.inr hoom⟩,
        Or.inr ⟨t, i, rfl, hset _ node.reopened rfl rfl fun _ => rfl⟩⟩
    · rw [hpush]
      exact ⟨hi', ⟨none, hf', Or.inl rfl⟩, Or.inr ⟨t, i, rfl, hset _ node.reopened rfl rfl herase⟩⟩

/-- The branch of an emission for a search. -/
theorem pfEmitSearch_emitted (adapter : Adapter σ) (h : Running true options (some active) c)
    (t : Transition) (world : σ) :
    Emission options.algorithm active (some t) c (pfEmitSearch adapter c world t).2.1 := by
  unfold pfEmitSearch
  rw [h.active_eq, h.options_eq, Option.getD_some]
  dsimp only
  by_cases hover : uint64Max-(c.node active).cost < stepCost options.algorithm t
  · rw [if_pos hover]
    exact .stop h _ _ _
  rw [if_neg hover]
  cases hfind : pfFindNode c t.state with
  | none => exact pfEmitNew_emitted adapter h t world hfind
  | some i =>
    obtain ⟨hlt, hstate⟩ := (h.indexed.stored.find_iff t.state i).mp hfind
    dsimp only
    by_cases hge : (c.node active).cost+stepCost options.algorithm t ≥ (c.node i).cost
    · rw [if_pos hge]
      exact ⟨h.indexed, ⟨none, h.frontier rfl, Or.inl rfl⟩, Or.inl (.refl c)⟩
    · rw [if_neg hge]
      exact pfEmitImproved_emitted adapter h t i world hlt hstate (not_le.mp hge)

/-- One emission. -/
theorem pfEmitTransition_emitted (adapter : Adapter σ) (h : Running true options (some active) c)
    (transition : Option Transition) (world : σ) :
    Emission options.algorithm active transition c
      (pfEmitTransition adapter c world transition).2.1 := by
  have hsame : Emission options.algorithm active transition c c :=
    ⟨h.indexed, ⟨none, h.frontier rfl, Or.inl rfl⟩, Or.inl (.refl c)⟩
  unfold pfEmitTransition
  by_cases hs : c.stopped = true
  · rw [if_pos hs]
    exact hsame
  rw [if_neg hs]
  cases transition with
  | none => exact .stop h _ _ _
  | some t =>
    dsimp only
    split_ifs with hpoll hmax hreach
    · exact .stop h _ _ _
    · exact .stop h _ _ _
    · have hmode : c.reachability = true := hreach
      rw [h.mode] at hmode
      cases hmode
    · have hcounted : Running true options (some active) c.countExamined :=
        h.control rfl rfl rfl rfl h.best_lt rfl
      exact (pfEmitSearch_emitted adapter hcounted t _).examined

end LibAtrinik.Pathfinding

import LibAtrinik.PathfindingEmit

namespace LibAtrinik.Pathfinding

variable {σ : Type}

theorem not_pfFrontierAvailable (c : Context) (options : Options) (ho : c.options = options) :
    (!pfFrontierAvailable c) = spent options.maxFrontier c.heapCount := by
  unfold pfFrontierAvailable spent
  rw [ho]
  by_cases h0 : options.maxFrontier = 0 <;> by_cases h1 : c.heapCount < options.maxFrontier <;>
    simp [h0, h1]; omega

/-- The table after a push. -/
theorem table_recordFrontier (c : Context) (hi : Indexed c) (hf : Frontier c none)
    (table : Table) (hl : c.nodeList = table.nodes)
    (hm : c.metrics = peakAfter table.metrics c.heapCount) (hs : c.table.stop = table.stop)
    (hb : c.partialNode = table.partialNode) (hr : c.partialRank = table.partialRank) :
    c.table = table.recordFrontier := by
  have hcount := hf.placed.heapCount_eq hi
  rw [hl] at hcount
  refine Table.ext hl ?_ hs hb hr
  show c.metrics = _
  rw [hm, hcount]
  rfl

/-- The branch for a state that has no node yet. -/
theorem pfEmitNew_agrees (adapter : Adapter σ) (c : Context) (options : Options) (active : ℕ)
    (h : Running true options (some active) c) (transition : Transition) (cost : ℕ) (world : σ)
    (hfind : pfFindNode c transition.state = none) :
    OutOfMemory (pfEmitNew adapter c world transition cost).2.1 ∨
    Agrees true options (some active) (pfEmitNew adapter c world transition cost)
      (c.table.emitNew adapter options active world transition cost) := by
  have hi := h.indexed
  have hf := h.frontier rfl
  have hlen : c.table.nodes.length = c.nodeCount := hi.length_eq
  have hcount : openCount c.table.nodes = c.heapCount := (hf.placed.heapCount_eq hi).symm
  have hmetrics : c.table.metrics = c.metrics := rfl
  unfold pfEmitNew Table.emitNew
  rw [not_pfFrontierAvailable c options h.options_eq, hlen, hcount, hmetrics, h.options_eq]
  by_cases hgen : spent options.maxGenerated c.metrics.generated = true
  · simp only [if_pos hgen]
    exact Or.inr (h.agrees_stop _ _ world)
  by_cases hfull : spent options.maxFrontier c.heapCount = true
  · simp only [if_neg hgen, if_pos hfull]
    exact Or.inr (h.agrees_stop _ _ world)
  simp only [if_neg hgen, if_neg hfull, h.active_eq]
  generalize scoreState adapter options.algorithm world transition.state = score
  let node : PfNode := {
    state := transition.state, cost := cost, heuristic := score.1,
    priority := pfPriority options.algorithm cost score.1,
    transitionData := transition.data, parent := some active, sequence := c.nodeCount }
  rcases pfAddNode_spec c hi node (pfFindNode_eq_none c hi _ hfind) rfl with
    ⟨m, hash, cap, he, hs⟩ | ⟨m, hash, cap, nodes, ncap, he, hi1, hnew, hold⟩
  · rw [he]
    exact Or.inl (OutOfMemory.stop hs)
  · rw [he]
    dsimp only
    -- the context between `pf_add_node` and `pf_consider_partial`
    let c2 : Context := { c with
      memory := m, hash := hash, hashCapacity := cap, nodes := nodes, nodeCapacity := ncap,
      nodeCount := c.nodeCount+1
      metrics := { c.metrics with generated := c.metrics.generated+1 } }
    have hi2 : Indexed c2 := hi1.control rfl
    have hlist : c2.nodeList = c.nodeList ++ [node] := nodeList_append hi hi2 node rfl
      (fun i hlt => congrArg PfNode.erase (hold i hlt)) (congrArg PfNode.erase hnew)
    have hgrown : c2.table = { c.table with
        nodes := c.table.nodes ++ [node]
        metrics := { c.metrics with generated := c.metrics.generated+1 } } :=
      Table.ext hlist rfl rfl rfl rfl
    have hbest (i : ℕ) (hb : c.partialNode = some i) : i < c2.nodeCount :=
      Nat.lt_succ_of_lt (h.best_lt i hb)
    obtain ⟨best, rank, hcons, hblt, htab, hworld⟩ := pfConsiderPartial_spec adapter c2 hi2 hbest
      score.2 c.nodeCount (Nat.lt_succ_self _)
    have ho2 : c2.options = options := h.options_eq
    rw [ho2, hgrown] at htab hworld
    rw [hcons]
    let c3 : Context := { c2 with partialNode := best, partialRank := rank }
    have hi3 : Indexed c3 := hi2.control rfl
    have hf3 : Frontier c3 (some c.nodeCount) := hf.append rfl rfl rfl rfl hold
    have hopen : (c3.node c.nodeCount).closed = false := congrArg PfNode.closed hnew
    have hpar : ParentsBelow c3 (c.nodeCount+1) :=
      h.parent_lt.append hold hnew (h.active_lt active rfl) rfl
    have hprio (i : ℕ) (hlt : i < c.nodeCount+1) : Prioritized options.algorithm (c3.node i) := by
      rcases Nat.lt_succ_iff_lt_or_eq.mp hlt with hlt' | rfl
      · have h3 : c3.node i = c.node i := hold i hlt'
        rw [h3]
        exact h.priority rfl i hlt'
      · have h3 : c3.node c.nodeCount = node := hnew
        rw [h3]
        rfl
    rcases pfHeapPush_spec c3 hi3 c.nodeCount (Nat.lt_succ_self _) hopen hf3 with
      ⟨m', hpush⟩ | ⟨m', heap, hcap, nodes', hpush, hi4, hf4, herase⟩
    · rw [hpush]
      exact Or.inl (OutOfMemory.stop (hi3.shape.control rfl))
    · rw [hpush]
      right
      refine ⟨⟨hi4, fun _ => hf4, h.options_eq, h.mode, h.active_eq,
        fun i hi => Nat.lt_succ_of_lt (h.active_lt i hi), hblt,
        hpar.of_erase (fun i _ => herase i), fun _ i hlt => prioritized_of_erase (herase i) (hprio i hlt),
        congrArg (·+1) h.generated⟩, rfl, ?_, hworld.symm⟩
      · refine table_recordFrontier _ hi4 hf4 _ ?_ ?_ ?_ ?_ ?_
        · rw [htab]
          exact (nodeList_append hi hi4 node rfl
            (fun i hlt => (herase i).trans (congrArg PfNode.erase (hold i hlt)))
            ((herase c.nodeCount).trans (congrArg PfNode.erase hnew)))
        · rw [htab]
        · rw [htab]
          rfl
        · rw [htab]
        · rw [htab]

/-- One node has new contents, with the active node as its parent, and the others are as before. -/
theorem Running.rewrite {c c' : Context} {options : Options} {active : ℕ}
    (h : Running true options (some active) c) (i : ℕ) (node : PfNode) (hi : Indexed c')
    (hf : Frontier c' none) (hcount : c'.nodeCount = c.nodeCount) (ho : c'.options = c.options)
    (hm : c'.reachability = c.reachability) (ha : c'.activeNode = c.activeNode)
    (hb : ∀ j, c'.partialNode = some j → j < c.nodeCount)
    (hg : c'.metrics.generated = c.metrics.generated)
    (hnode : (c'.node i).erase = node.erase)
    (hother : ∀ j, j ≠ i → (c'.node j).erase = (c.node j).erase)
    (hparent : node.parent = some active) (hprio : Prioritized options.algorithm node) :
    Running true options (some active) c' := by
  have hpar : ParentsBelow c' c.nodeCount := by
    intro j hj p hp
    by_cases hji : j = i
    · have hpe := congrArg PfNode.parent hnode
      have hactive : (c'.node i).parent = some active := hpe.trans hparent
      rw [hji, hactive] at hp
      exact Option.some.inj hp ▸ h.active_lt active rfl
    · have hpe := congrArg PfNode.parent (hother j hji)
      exact h.parent_lt j hj p (hpe.symm.trans hp)
  refine ⟨hi, fun _ => hf, ho.trans h.options_eq, hm.trans h.mode, ha.trans h.active_eq, ?_, ?_, ?_,
    ?_, ?_⟩
  · rw [hcount]
    exact h.active_lt
  · rw [hcount]
    exact hb
  · rw [hcount]
    exact hpar
  · intro _ j hj
    rw [hcount] at hj
    by_cases hji : j = i
    · rw [hji]
      exact prioritized_of_erase hnode hprio
    · exact prioritized_of_erase (hother j hji) (h.priority rfl j hj)
  · rw [hg, hcount]
    exact h.generated

/-- An open node becomes cheaper, and is raised in the heap. -/
theorem Running.raise {c : Context} {options : Options} {active i : ℕ}
    (h : Running true options (some active) c) (hlt : i < c.nodeCount) (node : PfNode)
    (hstate : node.state = (c.node i).state) (hseq : node.sequence = i)
    (hindex : node.heapIndex = (c.node i).heapIndex) (hopen : (c.node i).closed = false)
    (hopen' : node.closed = false) (hle : nodeKey node ≤ nodeKey (c.node i))
    (hparent : node.parent = some active) (hprio : Prioritized options.algorithm node) :
    Running true options (some active) (pfHeapUp (c.setNode i node) (node.heapIndex.getD 0)) ∧
      (pfHeapUp (c.setNode i node) (node.heapIndex.getD 0)).table =
        { c.table with nodes := c.table.nodes.set i node.erase } := by
  have hi := h.indexed
  have hset := hi.setNode i node hlt hstate hseq
  have hnode (j : ℕ) := node_setNode c i j node (lt_of_lt_of_le hlt hi.count_le_length)
  obtain ⟨hi', hf', hframe⟩ :=
    pfHeapUp_spec c hi (h.frontier rfl) i hlt node hstate hseq hopen hopen' hindex hle
  have hrest := hframe.rest
  constructor
  · apply h.rewrite i node hi' hf' _ _ _ _ _ _ _ _ hparent hprio
    · rw [hrest]; rfl
    · rw [hrest]; rfl
    · rw [hrest]; rfl
    · rw [hrest]; rfl
    · rw [hrest]; exact h.best_lt
    · rw [hrest]; rfl
    · rw [hframe.erase, hnode, if_pos rfl]
    · intro j hji
      rw [hframe.erase, hnode, if_neg hji]
  · rw [hframe.table hset]
    exact Table.ext (nodeList_setNode hi i node hlt hset) rfl rfl rfl rfl

/-- A closed node becomes cheaper, and is put into the heap again. -/
theorem Running.reopen {c : Context} {options : Options} {active i : ℕ}
    (h : Running true options (some active) c) (hlt : i < c.nodeCount) (node : PfNode)
    (hstate : node.state = (c.node i).state) (hseq : node.sequence = i)
    (hclosed : (c.node i).closed = true) (hopen : node.closed = false)
    (hparent : node.parent = some active) (hprio : Prioritized options.algorithm node) :
    (∃ failed, pfHeapPush (c.setNode i node) i = (false, failed) ∧ Shape failed) ∨
    ∃ pushed, pfHeapPush (c.setNode i node) i = (true, pushed) ∧
      Running true options (some active) pushed ∧
      pushed.table =
        ({ c.table with nodes := c.table.nodes.set i node.erase } : Table).recordFrontier := by
  have hi := h.indexed
  have hset := hi.setNode i node hlt hstate hseq
  have hnode (j : ℕ) := node_setNode c i j node (lt_of_lt_of_le hlt hi.count_le_length)
  have hself : (c.setNode i node).node i = node := by rw [hnode, if_pos rfl]
  have hother (j : ℕ) (hji : j ≠ i) : (c.setNode i node).node j = c.node j := by
    rw [hnode, if_neg hji]
  have hf : Frontier (c.setNode i node) (some i) :=
    (h.frontier rfl).reopen i hclosed rfl rfl rfl rfl hother
  rcases pfHeapPush_spec _ hset i hlt (by rw [hself]; exact hopen) hf with
    ⟨m, hpush⟩ | ⟨m, heap, cap, nodes, hpush, hi', hf', herase⟩
  · exact Or.inl ⟨_, hpush, hset.shape.control rfl⟩
  · have hnew : (nodes.getD i default).erase = node.erase := (herase i).trans (by rw [hself])
    have hold (j : ℕ) (hji : j ≠ i) : (nodes.getD j default).erase = (c.node j).erase :=
      (herase j).trans (by rw [hother j hji])
    refine Or.inr ⟨_, hpush, ?_, ?_⟩
    · exact h.rewrite i node hi' hf' rfl rfl rfl rfl h.best_lt rfl hnew hold hparent hprio
    · refine table_recordFrontier _ hi' hf' _ ?_ rfl rfl rfl rfl
      exact nodeList_set hi hi' i node.erase hlt rfl (fun j _ hji => hold j hji) hnew

/-- The branch for a node that the transition makes cheaper. -/
theorem pfEmitImproved_agrees (adapter : Adapter σ) (c : Context) (options : Options)
    (active : ℕ) (h : Running true options (some active) c) (transition : Transition)
    (cost i : ℕ) (world : σ) (hlt : i < c.nodeCount) (hcost : cost < (c.node i).cost) :
    OutOfMemory (pfEmitImproved adapter c world transition cost i).2.1 ∨
    Agrees true options (some active) (pfEmitImproved adapter c world transition cost i)
      (c.table.emitImproved adapter options active world transition cost i) := by
  have hi := h.indexed
  have hf := h.frontier rfl
  have hlen : i < c.nodes.length := lt_of_lt_of_le hlt hi.count_le_length
  have hcount : openCount c.table.nodes = c.heapCount := (hf.placed.heapCount_eq hi).symm
  have hat : nodeAt c.table.nodes i = (c.node i).erase := hi.nodeAt_eq i hlt
  have hclosed : (c.node i).erase.closed = (c.node i).closed := rfl
  let node := (c.node i).improved options.algorithm cost transition (some active)
  have hnode : (c.node i).erase.improved options.algorithm cost transition (some active) =
      node.erase := rfl
  unfold pfEmitImproved Table.emitImproved
  rw [not_pfFrontierAvailable c options h.options_eq, hcount, hat, h.options_eq, h.active_eq]
  simp only [hclosed, hnode]
  by_cases hfull : ((c.node i).closed && spent options.maxFrontier c.heapCount) = true
  · rw [if_pos hfull, if_pos hfull]
    exact Or.inr (h.agrees_stop _ _ world)
  rw [if_neg hfull, if_neg hfull]
  let c1 := c.setNode i node
  have hi1 : Indexed c1 := hi.setNode i node hlt rfl (hi.sequence i hlt)
  have htab1 : c1.table = { c.table with nodes := c.table.nodes.set i node.erase } :=
    Table.ext (nodeList_setNode hi i node hlt hi1) rfl rfl rfl rfl
  obtain ⟨best, rank, hcons, hblt, htab, hworld⟩ := pfConsiderPartial_spec adapter c1 hi1
    h.best_lt world i hlt
  have ho1 : c1.options = options := h.options_eq
  rw [ho1, htab1] at htab hworld
  -- the context from which the heap operation starts, before the node is overwritten
  let c0 : Context := { c with partialNode := best, partialRank := rank }
  have h0 : Running true options (some active) c0 := h.control rfl rfl rfl rfl hblt rfl
  have hc2 : (pfConsiderPartial adapter (c.setNode i ((c.node i).improved options.algorithm cost
      transition (some active))) world i).1 = c0.setNode i node := hcons
  have hnode2 : (c0.setNode i node).node i = node := by
    rw [node_setNode c0 i i node hlen, if_pos rfl]
  have hprio : Prioritized options.algorithm node := rfl
  have hle : nodeKey node ≤ nodeKey (c0.node i) := by
    apply nodeKey_mono node (c0.node i) _ rfl rfl
    have hp : (c0.node i).priority = _ := h.priority rfl i hlt
    rw [hp]
    exact pfPriority_mono _ _ _ _ hcost.le
  simp only [hc2, hnode2]
  have hnc : node.closed = (c.node i).closed := rfl
  rw [hnc]
  cases hcl : (c.node i).closed with
  | false =>
    simp only [Bool.false_eq_true, if_false]
    obtain ⟨hrun, htable⟩ := h0.raise hlt node rfl (hi.sequence i hlt) rfl hcl hcl hle rfl hprio
    exact Or.inr ⟨hrun, rfl, htable.trans htab.symm, hworld.symm⟩
  | true =>
    simp only [if_true]
    have hset : (c0.setNode i node).setNode i node.reopened = c0.setNode i node.reopened := by
      simp [Context.setNode]
    rw [hset]
    rcases h0.reopen hlt node.reopened rfl (hi.sequence i hlt) hcl rfl rfl hprio with
      ⟨failed, hpush, hshape⟩ | ⟨pushed, hpush, hrun, htable⟩
    · rw [hpush]
      exact Or.inl (OutOfMemory.stop hshape)
    · rw [hpush]
      refine Or.inr ⟨hrun, rfl, htable.trans ?_, hworld.symm⟩
      rw [htab]
      simp only [List.set_set]
      rfl

/-- `pf_emit_transition` during a search. -/
theorem pfEmitSearch_agrees (adapter : Adapter σ) (c : Context) (options : Options)
    (active : ℕ) (h : Running true options (some active) c) (transition : Transition)
    (world : σ) :
    OutOfMemory (pfEmitSearch adapter c world transition).2.1 ∨
    Agrees true options (some active) (pfEmitSearch adapter c world transition)
      (c.table.emitSearch adapter options active world transition) := by
  have hi := h.indexed
  have hact := h.active_lt active rfl
  have hparent : (nodeAt c.table.nodes active).cost = (c.node active).cost := by
    rw [show nodeAt c.table.nodes active = (c.node active).erase from hi.nodeAt_eq active hact]
    rfl
  have hfind : findState c.table.nodes transition.state = pfFindNode c transition.state :=
    (pfFindNode_eq c hi transition.state).symm
  unfold pfEmitSearch Table.emitSearch
  simp only [h.active_eq, h.options_eq, Option.getD_some, hparent, hfind]
  by_cases hover : uint64Max-(c.node active).cost < stepCost options.algorithm transition
  · simp only [if_pos hover]
    exact Or.inr (h.agrees_stop _ _ world)
  simp only [if_neg hover]
  cases hf : pfFindNode c transition.state with
  | none => exact pfEmitNew_agrees adapter c options active h transition _ world hf
  | some i =>
    have hlt : i < c.nodeCount := by
      rw [pfFindNode_eq c hi] at hf
      have hlt := (findState_eq_some _ _ _ hf).1
      rwa [hi.length_eq] at hlt
    have hcost : (nodeAt c.table.nodes i).cost = (c.node i).cost := by
      rw [show nodeAt c.table.nodes i = (c.node i).erase from hi.nodeAt_eq i hlt]
      rfl
    simp only [hcost]
    by_cases hge : (c.node active).cost+stepCost options.algorithm transition ≥ (c.node i).cost
    · simp only [if_pos hge]
      exact Or.inr ⟨h, rfl, rfl, rfl⟩
    · simp only [if_neg hge]
      exact pfEmitImproved_agrees adapter c options active h transition _ i world hlt (by omega)

/-- The emission that the table makes in either kind of operation. -/
def Table.emit (search : Bool) (adapter : Adapter σ) (options : Options) (active : ℕ)
    (table : Table) (world : σ) (transition : Option Transition) : Bool × Table × σ :=
  if search then table.searchEmit adapter options active world transition
  else table.reachableEmit adapter options active world transition

theorem pfEmitTransition_agrees (search : Bool) (adapter : Adapter σ) (c : Context)
    (options : Options) (active : ℕ) (h : Running search options (some active) c)
    (transition : Option Transition) (world : σ) :
    OutOfMemory (pfEmitTransition adapter c world transition).2.1 ∨
    Agrees search options (some active) (pfEmitTransition adapter c world transition)
      (Table.emit search adapter options active c.table world transition) := by
  have hstop := table_stop_isSome c
  have hguard : Table.emit search adapter options active c.table world transition =
      c.table.emitGuarded adapter options (fun table world transition =>
        if search then table.emitSearch adapter options active world transition
        else ((table.emitReachable options active transition).1,
          (table.emitReachable options active transition).2, world)) world transition := by
    cases search <;> rfl
  rw [hguard]
  unfold pfEmitTransition Table.emitGuarded
  rw [hstop]
  cases hs : c.stopped with
  | true => exact Or.inr ⟨h, rfl, rfl, rfl⟩
  | false =>
    simp only [Bool.false_eq_true, if_false]
    cases transition with
    | none => exact Or.inr (h.agrees_stop _ _ world)
    | some transition =>
      generalize pollCancelled adapter world = poll
      have hmetrics : c.table.metrics = c.metrics := rfl
      simp only [hmetrics, h.options_eq]
      by_cases hpoll : poll.1 = true
      · simp only [if_pos hpoll]
        exact Or.inr (h.agrees_stop _ _ poll.2)
      by_cases hmax : spent options.maxTransitions c.metrics.examinedTransitions = true
      · simp only [if_neg hpoll, if_pos hmax]
        exact Or.inr (h.agrees_stop _ _ poll.2)
      simp only [if_neg hpoll, if_neg hmax]
      have h' : Running search options (some active) c.countExamined :=
        h.control rfl rfl rfl rfl h.best_lt rfl
      rw [h'.mode]
      cases search with
      | true => exact pfEmitSearch_agrees adapter _ options active h' transition poll.2
      | false => exact pfEmitReachable_agrees _ options active h' transition poll.2

end LibAtrinik.Pathfinding

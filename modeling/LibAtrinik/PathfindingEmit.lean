import LibAtrinik.PathfindingFrontier

namespace LibAtrinik.Pathfinding

variable {σ : Type}

/-- The table that a context stands for. -/
def Context.table (c : Context) : Table where
  nodes := c.nodeList
  metrics := c.metrics
  stop := if c.stopped then some (c.stopStatus, c.stopTermination) else none
  partialNode := c.partialNode
  partialRank := c.partialRank

theorem table_stop (c : Context) :
    c.table.stop = if c.stopped then some (c.stopStatus, c.stopTermination) else none := rfl

theorem table_stop_isSome (c : Context) : c.table.stop.isSome = c.stopped := by
  rw [table_stop]
  cases c.stopped <;> rfl

/-- The table does not show the heap. -/
theorem HeapFrame.table {c c' : Context} (h : HeapFrame c c') (hi : Indexed c) :
    c'.table = c.table := by
  have hcount : c'.nodeCount = c.nodeCount := by rw [h.rest]
  have hlist : c'.nodeList = c.nodeList := by
    apply nodeList_eq _ _ (h.indexed hi).count_le_length
    · rw [hi.length_eq, hcount]
    · intro i hlt
      rw [hcount] at hlt
      rw [hi.nodeAt_eq i hlt]
      exact (h.erase i).symm
  apply Table.ext hlist
  all_goals
    unfold Context.table
    rw [h.rest]

/-- Only fields outside the node storage and the heap differ. -/
def Control (c c' : Context) : Prop :=
  c' = { c with
    options := c'.options, metrics := c'.metrics, stopStatus := c'.stopStatus,
    stopTermination := c'.stopTermination, stopped := c'.stopped,
    reachability := c'.reachability, activeNode := c'.activeNode,
    partialNode := c'.partialNode, partialRank := c'.partialRank, memory := c'.memory }

theorem Shape.control {c c' : Context} (hs : Shape c) (h : Control c c') : Shape c' := by
  rw [h]
  exact ⟨hs.1, hs.2, hs.3, hs.4, hs.5, hs.6, hs.7⟩

theorem Indexed.control {c c' : Context} (hi : Indexed c) (h : Control c c') : Indexed c' := by
  have hs := hi.shape.control h
  rw [h] at hs ⊢
  exact ⟨hs, hi.2, hi.3, hi.4, hi.5, hi.6⟩

theorem Frontier.control {c c' : Context} {out : Option ℕ} (hf : Frontier c out)
    (h : Control c c') : Frontier c' out := by
  have hp := hf.placed
  rw [h]
  exact ⟨⟨hp.1, hp.2, hp.3, hp.4, hp.5, hp.6⟩, hf.ordered⟩

/-- The priority of a node is that of its present cost. -/
def Prioritized (algorithm : Algorithm) (node : PfNode) : Prop :=
  node.priority = pfPriority algorithm node.cost node.heuristic

theorem prioritized_of_erase {algorithm : Algorithm} {a b : PfNode} (h : a.erase = b.erase)
    (hb : Prioritized algorithm b) : Prioritized algorithm a := by
  have hb' : Prioritized algorithm b.erase := hb
  rw [← h] at hb'
  exact hb'

/-- The parents of the nodes are nodes. -/
def ParentsBelow (c : Context) (n : ℕ) : Prop :=
  ∀ i < n, ∀ p, (c.node i).parent = some p → p < n

theorem ParentsBelow.of_erase {c c' : Context} {n : ℕ} (h : ParentsBelow c n)
    (he : ∀ i < n, (c'.node i).erase = (c.node i).erase) : ParentsBelow c' n := by
  intro i hi p hp
  have hpar := congrArg PfNode.parent (he i hi)
  exact h i hi p (hpar.symm.trans hp)

/-- The invariant of an operation: `search` tells a search from a traversal, and `active` is
the node whose transitions are being enumerated. -/
structure Running (search : Bool) (options : Options) (active : Option ℕ) (c : Context) :
    Prop where
  indexed : Indexed c
  frontier : search = true → Frontier c none
  options_eq : c.options = options
  mode : c.reachability = !search
  active_eq : c.activeNode = active
  active_lt : ∀ i, active = some i → i < c.nodeCount
  best_lt : ∀ i, c.partialNode = some i → i < c.nodeCount
  parent_lt : ParentsBelow c c.nodeCount
  priority : search = true → ∀ i < c.nodeCount, Prioritized options.algorithm (c.node i)
  generated : c.metrics.generated = c.nodeCount

/-- The operation has been stopped because memory was refused. -/
structure OutOfMemory (c : Context) : Prop where
  shape : Shape c
  stopped : c.stopped = true
  status : c.stopStatus = .outOfMemory
  termination : c.stopTermination = .outOfMemory

/-- A step of the source and a step of the table had the same effect. -/
structure Agrees (search : Bool) (options : Options) (active : Option ℕ)
    (r : Bool × Context × σ) (r' : Bool × Table × σ) : Prop where
  running : Running search options active r.2.1
  flag : r.1 = r'.1
  table : r.2.1.table = r'.2.1
  world : r.2.2 = r'.2.2

theorem Running.control {search : Bool} {options : Options} {active : Option ℕ} {c c' : Context}
    (h : Running search options active c) (hc : Control c c') (ho : c'.options = c.options)
    (hm : c'.reachability = c.reachability) (ha : c'.activeNode = c.activeNode)
    (hb : ∀ i, c'.partialNode = some i → i < c.nodeCount)
    (hg : c'.metrics.generated = c.metrics.generated) : Running search options active c' := by
  have hcount : c'.nodeCount = c.nodeCount := by rw [hc]
  have hnode : c'.node = c.node := by rw [hc]; rfl
  exact ⟨h.indexed.control hc, fun hs => (h.frontier hs).control hc, ho.trans h.options_eq,
    hm.trans h.mode, ha.trans h.active_eq, fun i hi => by rw [hcount]; exact h.active_lt i hi,
    fun i hi => by rw [hcount]; exact hb i hi,
    by rw [hcount]; exact h.parent_lt.of_erase (fun i _ => by rw [hnode]),
    fun hs i hi => by rw [hnode]; exact h.priority hs i (by rwa [hcount] at hi),
    by rw [hg, hcount]; exact h.generated⟩

/-- The nodes are as many as the counter says, and they fit into the address space. -/
theorem Running.generated_le {search : Bool} {options : Options} {active : Option ℕ}
    {c : Context} (h : Running search options active c) :
    c.metrics.generated*sizeofPfNode ≤ sizeMax := by
  rw [h.generated]
  exact (Nat.mul_le_mul_right _ h.indexed.count_le).trans h.indexed.shape.bytes

/-- Stopping the operation. -/
theorem Running.agrees_stop {search : Bool} {options : Options} {active : Option ℕ}
    {c : Context} (h : Running search options active c) (status : Status)
    (termination : Termination) (world : σ) :
    Agrees search options active (false, pfStop c status termination, world)
      (false, c.table.stopWith status termination, world) :=
  ⟨h.control rfl rfl rfl rfl h.best_lt rfl, rfl, rfl, rfl⟩

theorem OutOfMemory.stop {c : Context} (hs : Shape c) :
    OutOfMemory (pfStop c .outOfMemory .outOfMemory) :=
  ⟨hs.control rfl, rfl, rfl, rfl⟩

theorem betterPartial_congr (rank currentRank : ℕ) (a b : PfNode) :
    betterPartial rank a.erase currentRank b.erase = betterPartial rank a currentRank b := rfl

/-- `pf_consider_partial` on the context and on the table. -/
theorem pfConsiderPartial_spec (adapter : Adapter σ) (c : Context) (hi : Indexed c)
    (hb : ∀ i, c.partialNode = some i → i < c.nodeCount) (world : σ) (i : ℕ)
    (h : i < c.nodeCount) :
    ∃ best rank, (pfConsiderPartial adapter c world i).1 =
        { c with partialNode := best, partialRank := rank } ∧
      (∀ j, best = some j → j < c.nodeCount) ∧
      (c.table.considerPartial adapter c.options world i).1 =
        { c.table with partialNode := best, partialRank := rank } ∧
      (c.table.considerPartial adapter c.options world i).2 =
        (pfConsiderPartial adapter c world i).2 := by
  have hat : nodeAt c.table.nodes i = (c.node i).erase := hi.nodeAt_eq i h
  have hstate : (c.node i).erase.state = (c.node i).state := rfl
  have hrank : c.table.partialRank = c.partialRank := rfl
  unfold pfConsiderPartial Table.considerPartial
  by_cases hp : c.options.returnPartial = true
  · simp only [if_pos hp, hat, hstate, hrank]
    have hbest : c.table.partialNode = c.partialNode := rfl
    rw [hbest]
    cases hpn : c.partialNode with
    | none => exact ⟨some i, _, rfl, fun j hj => Option.some.inj hj ▸ h, rfl, rfl⟩
    | some best =>
      have hlt := hb best hpn
      have hat' : nodeAt c.table.nodes best = (c.node best).erase := hi.nodeAt_eq best hlt
      simp only [hat']
      rw [betterPartial_congr]
      split_ifs with hbetter
      · exact ⟨some i, _, rfl, fun j hj => Option.some.inj hj ▸ h, rfl, rfl⟩
      · exact ⟨c.partialNode, c.partialRank, rfl, hb, rfl, rfl⟩
  · rw [if_neg hp, if_neg hp]
    exact ⟨c.partialNode, c.partialRank, rfl, hb, rfl, rfl⟩

theorem pfFindNode_eq_none (c : Context) (hi : Indexed c) (state : StateId)
    (h : pfFindNode c state = none) : ∀ i < c.nodeCount, (c.node i).state ≠ state := by
  intro i hlt hs
  rw [← hs, pfFindNode_present c hi.stored i hlt] at h
  cases h

/-- A node whose parent is a node has been stored after the others. -/
theorem ParentsBelow.append {c c' : Context} {node : PfNode} {active : ℕ}
    (h : ParentsBelow c c.nodeCount) (hold : ∀ i < c.nodeCount, c'.node i = c.node i)
    (hnew : c'.node c.nodeCount = node) (ha : active < c.nodeCount)
    (hp : node.parent = some active) : ParentsBelow c' (c.nodeCount+1) := by
  intro i hi p hpar
  rcases Nat.lt_succ_iff_lt_or_eq.mp hi with hlt | rfl
  · rw [hold i hlt] at hpar
    exact Nat.lt_succ_of_lt (h i hlt p hpar)
  · rw [hnew, hp] at hpar
    exact Option.some.inj hpar ▸ Nat.lt_succ_of_lt ha

/-- The branch for a traversal. -/
theorem pfEmitReachable_agrees (c : Context) (options : Options) (active : ℕ)
    (h : Running false options (some active) c) (transition : Transition) (world : σ) :
    OutOfMemory (pfEmitReachable c transition).2 ∨
    Agrees false options (some active)
      ((pfEmitReachable c transition).1, (pfEmitReachable c transition).2, world)
      ((c.table.emitReachable options active transition).1,
        (c.table.emitReachable options active transition).2, world) := by
  have hi := h.indexed
  have hlen : c.table.nodes.length = c.nodeCount := hi.length_eq
  have hfind : findState c.table.nodes transition.state = pfFindNode c transition.state :=
    (pfFindNode_eq c hi transition.state).symm
  have hmetrics : c.table.metrics = c.metrics := rfl
  unfold pfEmitReachable Table.emitReachable
  rw [hfind, hlen, h.options_eq, hmetrics]
  cases hf : pfFindNode c transition.state with
  | some i => exact Or.inr ⟨h, rfl, rfl, rfl⟩
  | none =>
    simp only [Option.isSome_none, Bool.false_eq_true, if_false]
    by_cases hgen : spent options.maxGenerated c.metrics.generated = true
    · simp only [if_pos hgen]
      exact Or.inr (h.agrees_stop _ _ world)
    · by_cases hfront : spent options.maxFrontier (c.nodeCount-c.metrics.expanded) = true
      · simp only [if_neg hgen, if_pos hfront]
        exact Or.inr (h.agrees_stop _ _ world)
      · simp only [if_neg hgen, if_neg hfront, h.active_eq]
        let node : PfNode := {
          state := transition.state, parent := some active, sequence := c.nodeCount,
          transitionData := transition.data }
        rcases pfAddNode_spec c hi node (pfFindNode_eq_none c hi _ hf) rfl with
          ⟨m, hash, cap, he, hs⟩ | ⟨m, hash, cap, nodes, ncap, he, hi', hnew, hold⟩
        · rw [he]
          exact Or.inl (OutOfMemory.stop hs)
        · rw [he]
          right
          have hlist := nodeList_append hi hi' node rfl
            (fun i hlt => congrArg PfNode.erase (hold i hlt)) (congrArg PfNode.erase hnew)
          refine ⟨⟨hi'.control rfl, fun hs => absurd hs (by simp), h.options_eq, h.mode,
            h.active_eq, fun i hi => Nat.lt_succ_of_lt (h.active_lt i hi),
            fun i hi => Nat.lt_succ_of_lt (h.best_lt i hi),
            h.parent_lt.append hold hnew (h.active_lt active rfl) rfl,
            fun hs => absurd hs (by simp), congrArg (·+1) h.generated⟩,
            rfl, ?_, rfl⟩
          exact Table.ext hlist rfl rfl rfl rfl

theorem pfPriority_mono (algorithm : Algorithm) (cost cost' heuristic : ℕ) (h : cost ≤ cost') :
    pfPriority algorithm cost heuristic ≤ pfPriority algorithm cost' heuristic := by
  unfold pfPriority
  by_cases ha : algorithm = .astar
  · simp only [ha, true_and, reduceCtorEq, if_false, if_true]
    split_ifs <;> omega
  · simp only [ha, false_and, if_false]
    split_ifs <;> omega

theorem nodeKey_mono (a b : PfNode) (hp : a.priority ≤ b.priority)
    (hh : a.heuristic = b.heuristic) (hs : a.sequence = b.sequence) : nodeKey a ≤ nodeKey b := by
  unfold nodeKey
  rw [hh, hs, Prod.Lex.toLex_le_toLex]
  rcases Nat.lt_or_eq_of_le hp with hlt | heq
  · exact Or.inl hlt
  · exact Or.inr ⟨heq, le_rfl⟩

/-- The heap after a node has been stored that is not in the heap. -/
theorem Frontier.append {c c' : Context} (hf : Frontier c none) (hh : c'.heap = c.heap)
    (hc : c'.heapCount = c.heapCount) (hcap : c'.heapCapacity = c.heapCapacity)
    (hn : c'.nodeCount = c.nodeCount+1) (hold : ∀ i < c.nodeCount, c'.node i = c.node i) :
    Frontier c' (some c.nodeCount) := by
  have hp := hf.placed
  apply hf.congr hh hc hcap (by omega)
  · intro p h
    exact hold _ (hp.bound p h)
  · intro p h he
    have := hp.bound p h
    have := Option.some.inj he
    omega
  · intro i h ho hout
    rw [hn] at h
    have hlt : i < c.nodeCount := by
      have : i ≠ c.nodeCount := fun he => hout (by rw [he])
      omega
    rw [hold i hlt] at ho
    exact hp.complete i hlt ho (by simp)

/-- The heap after a closed node has been overwritten by an open one. -/
theorem Frontier.reopen {c c' : Context} (hf : Frontier c none) (i : ℕ)
    (hclosed : (c.node i).closed = true) (hh : c'.heap = c.heap)
    (hc : c'.heapCount = c.heapCount) (hcap : c'.heapCapacity = c.heapCapacity)
    (hn : c'.nodeCount = c.nodeCount) (hold : ∀ j, j ≠ i → c'.node j = c.node j) :
    Frontier c' (some i) := by
  have hp := hf.placed
  have hne (p : ℕ) (h : p < c.heapCount) : c.heapAt p ≠ i := by
    intro he
    have ho := hp.isOpen p h
    rw [he, hclosed] at ho
    cases ho
  apply hf.congr hh hc hcap hn.ge
  · intro p h
    exact hold _ (hne p h)
  · intro p h he
    exact hne p h (Option.some.inj he).symm
  · intro j h ho hout
    rw [hn] at h
    have hji : j ≠ i := fun he => hout (by rw [he])
    rw [hold j hji] at ho
    exact hp.complete j h ho (by simp)

end LibAtrinik.Pathfinding

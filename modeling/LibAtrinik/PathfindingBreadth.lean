import LibAtrinik.PathfindingBudgets

namespace LibAtrinik.Pathfinding

variable {σ : Type} {o : Options} {nodes : List PfNode} {done : ℕ}

/-- The nodes of a breadth-first search of which the first `done` have been expanded. -/
structure Queued (nodes : List PfNode) (done : ℕ) : Prop where
  closed : ∀ i < nodes.length, (nodeAt nodes i).closed = decide (i < done)
  heuristic : ∀ i < nodes.length, (nodeAt nodes i).heuristic = 0
  priority : ∀ i < nodes.length, (nodeAt nodes i).priority = (nodeAt nodes i).cost
  sequence : ∀ i < nodes.length, (nodeAt nodes i).sequence = i
  cost_le : ∀ i < nodes.length, (nodeAt nodes i).cost ≤ i
  sorted : ∀ i j, i ≤ j → j < nodes.length → (nodeAt nodes i).cost ≤ (nodeAt nodes j).cost

theorem Queued.isOpen_iff (h : Queued nodes done) (i : ℕ) (hi : i < nodes.length) :
    IsOpen nodes i ↔ done ≤ i := by
  unfold IsOpen
  rw [h.closed i hi, decide_eq_false_iff_not, Nat.not_lt]
  exact and_iff_right hi

theorem Queued.isNext (h : Queued nodes done) (hlt : done < nodes.length) : IsNext nodes done := by
  refine ⟨(h.isOpen_iff done hlt).mpr le_rfl, fun j hj hopen => ?_⟩
  have hle := (h.isOpen_iff j hj).mp hopen
  unfold nodeKey
  rw [h.priority done hlt, h.priority j hj, h.heuristic done hlt, h.heuristic j hj,
    h.sequence done hlt, h.sequence j hj, Prod.Lex.toLex_le_toLex]
  rcases Nat.lt_or_eq_of_le (h.sorted done j hle hj) with hcost | hcost
  · exact Or.inl hcost
  · refine Or.inr ⟨hcost, ?_⟩
    rw [Prod.Lex.toLex_le_toLex]
    exact Or.inr ⟨rfl, hle⟩

/-- The next node of the heap is the next one of the queue. -/
theorem Queued.nextOpen_eq (h : Queued nodes done) (hlt : done < nodes.length) :
    nextOpen nodes = some done :=
  nextOpen_eq_some nodes done (h.isNext hlt) h.sequence

theorem Queued.nextOpen_none (h : Queued nodes done) (hle : nodes.length ≤ done) :
    nextOpen nodes = none := by
  refine nextOpen_eq_none nodes fun i hi => ?_
  have := (h.isOpen_iff i hi.1).mp hi
  have := hi.1
  omega

/-- The size of the heap is the number of nodes that have not been expanded. -/
theorem Queued.openCount_eq (h : Queued nodes done) : openCount nodes = nodes.length-done := by
  unfold openCount
  have hset : (Finset.range nodes.length).filter (IsOpen nodes) = Finset.Ico done nodes.length := by
    ext i
    simp only [Finset.mem_filter, Finset.mem_range, Finset.mem_Ico]
    constructor
    · rintro ⟨hi, hopen⟩
      exact ⟨(h.isOpen_iff i hi).mp hopen, hi⟩
    · rintro ⟨hle, hi⟩
      exact ⟨hi, (h.isOpen_iff i hi).mpr hle⟩
  rw [hset, Nat.card_Ico]

theorem Queued.close (h : Queued nodes done) (hlt : done < nodes.length) :
    Queued (closeAt nodes done) (done+1) := by
  have hnode (i : ℕ) := nodeAt_closeAt nodes done i hlt
  have hcost (i : ℕ) := closeAt_cost nodes done i hlt
  have hlen := closeAt_length nodes done
  constructor
  · intro i hi
    rw [hlen] at hi
    rw [hnode]
    split_ifs with hd
    · simp [hd]
    · rw [h.closed i hi, decide_eq_decide]
      omega
  · intro i hi
    rw [hnode]
    split_ifs with hd
    · exact h.heuristic done hlt
    · exact h.heuristic i (hlen ▸ hi)
  · intro i hi
    rw [hcost, hnode]
    split_ifs with hd
    · rw [hd]
      exact h.priority done hlt
    · exact h.priority i (hlen ▸ hi)
  · intro i hi
    rw [hnode]
    split_ifs with hd
    · rw [hd]
      exact h.sequence done hlt
    · exact h.sequence i (hlen ▸ hi)
  · intro i hi
    rw [hcost]
    exact h.cost_le i (hlen ▸ hi)
  · intro i j hij hj
    rw [hcost, hcost]
    exact h.sorted i j hij (hlen ▸ hj)

/-- No cost is above `c`. -/
def CostsBelow (nodes : List PfNode) (c : ℕ) : Prop :=
  ∀ i < nodes.length, (nodeAt nodes i).cost ≤ c

/-- A state is discovered one step after the node that is expanded, and no node is later. -/
theorem Queued.append (h : Queued nodes (done+1)) (node : PfNode) (hd : done < nodes.length)
    (hlow : CostsBelow nodes ((nodeAt nodes done).cost+1))
    (hcost : node.cost = (nodeAt nodes done).cost+1) (hclosed : node.closed = false)
    (hheur : node.heuristic = 0) (hprio : node.priority = node.cost)
    (hseq : node.sequence = nodes.length) :
    Queued (nodes ++ [node]) (done+1) ∧
      CostsBelow (nodes ++ [node]) ((nodeAt nodes done).cost+1) := by
  have hnode := nodeAt_append nodes node
  have hlen : (nodes ++ [node]).length = nodes.length+1 := by simp
  have hlow' : CostsBelow (nodes ++ [node]) ((nodeAt nodes done).cost+1) := by
    intro i hi
    rw [hnode]
    split_ifs with he
    · exact hcost.le
    · exact hlow i (by omega)
  refine ⟨⟨?_, ?_, ?_, ?_, ?_, ?_⟩, hlow'⟩
  · intro i hi
    rw [hnode]
    split_ifs with he
    · rw [hclosed, eq_comm, decide_eq_false_iff_not]
      omega
    · exact h.closed i (by omega)
  · intro i hi
    rw [hnode]
    split_ifs with he
    · exact hheur
    · exact h.heuristic i (by omega)
  · intro i hi
    rw [hnode]
    split_ifs with he
    · exact hprio
    · exact h.priority i (by omega)
  · intro i hi
    rw [hnode]
    split_ifs with he
    · rw [he, hseq]
    · exact h.sequence i (by omega)
  · intro i hi
    have hle := h.cost_le done hd
    rw [hnode]
    split_ifs with he
    · omega
    · exact h.cost_le i (by omega)
  · intro i j hij hj
    by_cases he : j = nodes.length
    · rw [hnode j, if_pos he, hcost]
      exact hlow' i (by omega)
    · rw [hnode i, hnode j, if_neg he, if_neg (by omega)]
      exact h.sorted i j hij (by omega)

/-- A breadth-first search and a traversal that have expanded the same `done` nodes. -/
structure Lockstep (done : ℕ) (table other : Table) : Prop where
  queued : Queued table.nodes done
  states : statesOf table.nodes = statesOf other.nodes
  metrics : table.metrics = other.metrics
  stop : table.stop = other.stop
  genuine : ∀ verdict, other.stop = some verdict → verdict.1 ≠ .noPath ∧ verdict.1 ≠ .complete
  expanded : table.metrics.expanded = done
  generated : table.metrics.generated = table.nodes.length

theorem Lockstep.length_eq {table other : Table} (h : Lockstep done table other) :
    table.nodes.length = other.nodes.length := by
  have hlen := congrArg List.length h.states
  simpa only [statesOf, List.length_map] using hlen

theorem findState_eq_findIdx? (nodes : List PfNode) (state : StateId) :
    findState nodes state = (statesOf nodes).findIdx? (· = state) := by
  unfold findState statesOf
  rw [List.findIdx?_map]
  rfl

theorem Lockstep.findState_eq {table other : Table} (h : Lockstep done table other)
    (state : StateId) : findState table.nodes state = findState other.nodes state := by
  rw [findState_eq_findIdx?, findState_eq_findIdx?, h.states]

theorem Lockstep.stopWith {table other : Table} (h : Lockstep done table other) (status : Status)
    (termination : Termination) (hn : status ≠ .noPath ∧ status ≠ .complete) :
    Lockstep done (table.stopWith status termination) (other.stopWith status termination) :=
  ⟨h.queued, h.states, h.metrics, rfl, fun _ hv => Option.some.inj hv ▸ hn, h.expanded,
    h.generated⟩

theorem Lockstep.countExamined {table other : Table} (h : Lockstep done table other) :
    Lockstep done table.countExamined other.countExamined := by
  refine ⟨h.queued, h.states, ?_, h.stop, h.genuine, h.expanded, h.generated⟩
  unfold Table.countExamined
  rw [h.metrics]

/-- The search has run out of costs. It has stored a node for every one of them. -/
def OutOfCosts (table : Table) : Prop :=
  table.stop = some (.costOverflow, .costOverflow) ∧ 2^64 ≤ table.metrics.generated

/-- What an expansion of node `done` keeps. -/
def Alongside (done : ℕ) (table other : Table) : Prop :=
  Lockstep (done+1) table other ∧ done < table.nodes.length ∧
    CostsBelow table.nodes ((nodeAt table.nodes done).cost+1)

/-- Two emissions that answer the same and stay in lockstep. -/
def SameEmission (done : ℕ) (r r' : Bool × Table × σ) : Prop :=
  r.1 = r'.1 ∧ Alongside done r.2.1 r'.2.1 ∧ r.2.2 = r'.2.2

theorem Alongside.halt {table other : Table} (h : Alongside done table other) (status : Status)
    (termination : Termination) (hn : status ≠ .noPath ∧ status ≠ .complete) (world : σ) :
    SameEmission done (false, table.stopWith status termination, world)
      (false, other.stopWith status termination, world) :=
  ⟨rfl, ⟨h.1.stopWith status termination hn, h.2⟩, rfl⟩

theorem considerPartial_false (table : Table) (adapter : Adapter σ) (world : σ) (i : ℕ)
    (hp : o.returnPartial = false) : table.considerPartial adapter o world i = (table, world) := by
  unfold Table.considerPartial
  rw [hp]
  rfl

theorem scoreState_breadthFirst (adapter : Adapter σ) (world : σ) (state : StateId) :
    scoreState adapter .breadthFirst world state = (0, world) := by
  unfold scoreState
  simp

/-- A new state is stored by both, or both run into the same limit. -/
theorem emitNew_alongside (adapter : Adapter σ) (ha : o.algorithm = .breadthFirst)
    (hp : o.returnPartial = false) {table other : Table} (h : Alongside done table other)
    (world : σ) (t : Transition) (hfind : findState other.nodes t.state = none) :
    SameEmission done
      (table.emitNew adapter o done world t ((nodeAt table.nodes done).cost+1))
      ((other.emitReachable o done t).1, (other.emitReachable o done t).2, world) := by
  obtain ⟨hlock, hd, hlow⟩ := h
  have hcount : openCount table.nodes = other.nodes.length-other.metrics.expanded := by
    rw [hlock.queued.openCount_eq, hlock.length_eq, ← hlock.metrics, hlock.expanded]
  unfold Table.emitNew Table.emitReachable
  rw [hfind, hlock.metrics, hcount]
  simp only [Option.isSome_none, Bool.false_eq_true, if_false]
  by_cases hgen : spent o.maxGenerated other.metrics.generated = true
  · rw [if_pos hgen, if_pos hgen]
    exact Alongside.halt ⟨hlock, hd, hlow⟩ _ _ (by decide) world
  by_cases hfull : spent o.maxFrontier (other.nodes.length-other.metrics.expanded) = true
  · rw [if_neg hgen, if_neg hgen, if_pos hfull, if_pos hfull]
    exact Alongside.halt ⟨hlock, hd, hlow⟩ _ _ (by decide) world
  rw [if_neg hgen, if_neg hgen, if_neg hfull, if_neg hfull]
  simp only [ha, scoreState_breadthFirst, considerPartial_false _ _ _ _ hp]
  let node : PfNode := {
    state := t.state
    cost := (nodeAt table.nodes done).cost+1
    priority := pfPriority .breadthFirst ((nodeAt table.nodes done).cost+1) 0
    transitionData := t.data
    parent := some done
    sequence := table.nodes.length }
  have hprio : node.priority = node.cost := by simp [node, pfPriority]
  obtain ⟨hq, hlow'⟩ := hlock.queued.append node hd hlow rfl rfl rfl hprio rfl
  have hopen : openCount (table.nodes ++ [node]) = other.nodes.length+1-other.metrics.expanded := by
    rw [hq.openCount_eq, List.length_append, List.length_singleton, hlock.length_eq,
      ← hlock.metrics, hlock.expanded]
  have hexp : other.metrics.expanded = done+1 := hlock.metrics ▸ hlock.expanded
  have hgenerated : other.metrics.generated = table.nodes.length := hlock.metrics ▸ hlock.generated
  refine ⟨rfl, ⟨⟨hq, ?_, ?_, hlock.stop, hlock.genuine, hexp, ?_⟩, ?_, ?_⟩, rfl⟩
  · show statesOf (table.nodes ++ [node]) = statesOf (other.nodes ++ [_])
    unfold statesOf
    rw [List.map_append, List.map_append]
    exact congrArg (· ++ [t.state]) hlock.states
  · -- the peak is taken of the size of the heap, or of the unexpanded part of the array
    unfold Table.recordFrontier
    dsimp only
    rw [show openCount (table.nodes ++ [_]) = _ from hopen]
  · show other.metrics.generated+1 = (table.nodes ++ [node]).length
    rw [List.length_append, hgenerated]
    rfl
  · show done < (table.nodes ++ [node]).length
    rw [List.length_append]
    exact Nat.lt_add_right _ hd
  · show CostsBelow (table.nodes ++ [node]) ((nodeAt (table.nodes ++ [node]) done).cost+1)
    rw [nodeAt_append, if_neg (by omega)]
    exact hlow'

/-- A transition to a known state changes nothing: no cost is larger than the next one. -/
theorem emitSearch_alongside (adapter : Adapter σ) (ha : o.algorithm = .breadthFirst)
    (hp : o.returnPartial = false) {table other : Table} (h : Alongside done table other)
    (world : σ) (t : Transition) :
    OutOfCosts (table.emitSearch adapter o done world t).2.1 ∨
      SameEmission done (table.emitSearch adapter o done world t)
        ((other.emitReachable o done t).1, (other.emitReachable o done t).2, world) := by
  obtain ⟨hlock, hd, hlow⟩ := h
  have hunit : stepCost o.algorithm t = 1 := by
    rw [ha]
    rfl
  unfold Table.emitSearch
  rw [hunit]
  dsimp only
  by_cases hover : uint64Max-(nodeAt table.nodes done).cost < 1
  · left
    rw [if_pos hover]
    refine ⟨rfl, ?_⟩
    -- the cost of a node is at most its index, and every index below has a node
    have hcost := hlock.queued.cost_le done hd
    show 2^64 ≤ table.metrics.generated
    rw [hlock.generated]
    unfold uint64Max at hover
    omega
  rw [if_neg hover]
  right
  cases hf : findState table.nodes t.state with
  | none =>
    rw [hlock.findState_eq] at hf
    exact emitNew_alongside adapter ha hp ⟨hlock, hd, hlow⟩ world t hf
  | some i =>
    have hi := (findState_eq_some _ _ _ hf).1
    rw [hlock.findState_eq] at hf
    dsimp only
    rw [if_pos (hlow i hi)]
    unfold Table.emitReachable
    rw [hf, Option.isSome_some, if_pos rfl]
    exact ⟨rfl, ⟨hlock, hd, hlow⟩, rfl⟩

/-- The checks before an emission are the same for both. -/
theorem searchEmit_alongside (adapter : Adapter σ) (ha : o.algorithm = .breadthFirst)
    (hp : o.returnPartial = false) {table other : Table} (h : Alongside done table other)
    (world : σ) (t : Option Transition) :
    OutOfCosts (Table.searchEmit adapter o done table world t).2.1 ∨
      SameEmission done (Table.searchEmit adapter o done table world t)
        (Table.reachableEmit adapter o done other world t) := by
  unfold Table.searchEmit Table.reachableEmit Table.emitGuarded
  rw [h.1.stop, h.1.metrics]
  by_cases hs : other.stop.isSome = true
  · rw [if_pos hs, if_pos hs]
    exact Or.inr ⟨rfl, h, rfl⟩
  rw [if_neg hs, if_neg hs]
  cases t with
  | none => exact Or.inr (h.halt _ _ (by decide) world)
  | some t =>
    dsimp only
    generalize pollCancelled adapter world = poll
    by_cases hpoll : poll.1 = true
    · rw [if_pos hpoll, if_pos hpoll]
      exact Or.inr (h.halt _ _ (by decide) poll.2)
    by_cases hmax : spent o.maxTransitions other.metrics.examinedTransitions = true
    · rw [if_neg hpoll, if_neg hpoll, if_pos hmax, if_pos hmax]
      exact Or.inr (h.halt _ _ (by decide) poll.2)
    rw [if_neg hpoll, if_neg hpoll, if_neg hmax, if_neg hmax]
    exact emitSearch_alongside adapter ha hp ⟨h.1.countExamined, h.2⟩ poll.2 t

theorem Lockstep.state_eq {table other : Table} (h : Lockstep done table other) (i : ℕ) :
    (nodeAt table.nodes i).state = (nodeAt other.nodes i).state := by
  have hmap (nodes : List PfNode) :
      (nodeAt nodes i).state = (statesOf nodes).getD i (default : PfNode).state :=
    (List.getD_map _ _ PfNode.state).symm
  rw [hmap, hmap, h.states]

/-- One expansion, whatever the adapter enumerates. -/
theorem expand_alongside (adapter : Adapter σ) (ha : o.algorithm = .breadthFirst)
    (hp : o.returnPartial = false) (neighbors : σ → StateId → Enumeration σ)
    {table other : Table} (h : Alongside done table other) (world : σ) :
    OutOfCosts (table.expand (Table.searchEmit adapter o done) neighbors world done).1 ∨
      Alongside done (table.expand (Table.searchEmit adapter o done) neighbors world done).1
          (other.expand (Table.reachableEmit adapter o done) neighbors world done).1 ∧
        (table.expand (Table.searchEmit adapter o done) neighbors world done).2 =
          (other.expand (Table.reachableEmit adapter o done) neighbors world done).2 := by
  have hrun := Enumeration.run_simulation (Table.searchEmit adapter o done)
    (Table.reachableEmit adapter o done) (Alongside done) OutOfCosts
    (by
      intro table world t hout
      rw [searchEmit_stopped adapter o done table world t (by rw [hout.1]; rfl)]
      exact hout)
    (fun table other world t h => searchEmit_alongside adapter ha hp h world t)
    (neighbors world (nodeAt other.nodes done).state) table other (Or.inr h)
  unfold Table.expand
  rw [h.1.state_eq]
  rcases hrun with hout | ⟨hflag, htables, hworld⟩
  · left
    have hnone : ((neighbors world (nodeAt other.nodes done).state).run
        (Table.searchEmit adapter o done) table).2.1.stop.isNone = false := by
      rw [hout.1]
      rfl
    simp only [hnone, Bool.and_false, Bool.false_eq_true, if_false]
    exact hout
  · right
    dsimp only
    rw [hflag, htables.1.stop]
    split_ifs
    · exact ⟨⟨htables.1.stopWith _ _ (by decide), htables.2⟩, hworld⟩
    · exact ⟨htables, hworld⟩

/-- The two calls tell the same: only the status of an exhausted run has two names. -/
structure SameTraversal (r : SearchResult) (s : ReachabilityResult) : Prop where
  noPath : r.status = .noPath ↔ s.status = .complete
  status : s.status ≠ .complete → r.status = s.status
  termination : r.termination = s.termination
  metrics : r.metrics = s.metrics

/-- Between two rounds no cost is more than one above that of the next node. -/
def Aligned (x : Table × σ) (y : ℕ × Table × σ) : Prop :=
  Lockstep y.1 x.1 y.2.1 ∧ x.1.stop = none ∧ x.2 = y.2.2 ∧
    (y.1 < x.1.nodes.length → CostsBelow x.1.nodes ((nodeAt x.1.nodes y.1).cost+1))

def SameOutcome (out : Option (SearchResult × σ)) (other : ReachabilityResult × σ) : Prop :=
  ∃ r, out = some (r, other.2) ∧ SameTraversal r other.1

theorem finish_returnPartial_false (table : Table) (hp : o.returnPartial = false)
    (status : Status) (termination : Termination) :
    table.finish o status termination none =
      some { status := status, termination := termination, metrics := table.metrics } := by
  unfold Table.finish
  cases table.partialNode with
  | none => rfl
  | some best =>
    dsimp only
    rw [if_neg (by simp [hp])]

/-- Both runs are stopped for the same reason. -/
theorem Lockstep.sameOutcome {table other : Table} (h : Lockstep done table other)
    (hp : o.returnPartial = false) (status : Status) (termination : Termination)
    (hs : other.stop = some (status, termination)) (world : σ) :
    SameOutcome ((table.finish o status termination none).map (·, world))
      (other.finishReachable, world) := by
  rw [finish_returnPartial_false table hp]
  refine ⟨_, rfl, ?_⟩
  unfold Table.finishReachable
  rw [hs]
  obtain ⟨hn, hc⟩ := h.genuine _ hs
  exact ⟨iff_of_false hn hc, fun _ => rfl, rfl, h.metrics⟩

/-- A search that is out of costs, seen from its result. -/
def OverflowResult (out : Option (SearchResult × σ)) : Prop :=
  ∃ x, out = some x ∧ 2^64 ≤ x.1.metrics.generated

theorem statesOf_closeAt (nodes : List PfNode) (i : ℕ) :
    statesOf (closeAt nodes i) = statesOf nodes := by
  unfold statesOf closeAt
  rw [List.map_set]
  by_cases hi : i < nodes.length
  · have hstate : (nodeAt nodes i).state = (nodes.map (·.state)).get ⟨i, by simpa using hi⟩ := by
      simp [nodeAt, hi]
    dsimp only
    rw [hstate]
    exact List.set_getElem_self _
  · exact List.set_eq_of_length_le (by simpa using hi)

theorem Aligned.expands {table other : Table} {world world' : σ}
    (h : Aligned (table, world) (done, other, world')) (hd : done < table.nodes.length) :
    Alongside done (table.close done)
      { other with metrics := { other.metrics with expanded := other.metrics.expanded+1 } } := by
  obtain ⟨hlock, hstop, -, hlow⟩ := h
  have hq := hlock.queued.close hd
  refine ⟨⟨hq, ?_, ?_, hlock.stop, hlock.genuine, ?_, ?_⟩, ?_, ?_⟩
  · exact (statesOf_closeAt table.nodes done).trans hlock.states
  · unfold Table.close
    rw [hlock.metrics]
  · show table.metrics.expanded+1 = done+1
    rw [hlock.expanded]
  · show table.metrics.generated = (closeAt table.nodes done).length
    rw [closeAt_length, hlock.generated]
  · show done < (closeAt table.nodes done).length
    rwa [closeAt_length]
  · intro i hi
    have hi' : i < table.nodes.length := closeAt_length table.nodes done ▸ hi
    show (nodeAt (closeAt table.nodes done) i).cost ≤
      (nodeAt (closeAt table.nodes done) done).cost+1
    rw [closeAt_cost _ _ _ hd, closeAt_cost _ _ _ hd]
    exact hlow hd i hi'

/-- One round of the search does what one round of the traversal does. -/
theorem searchRound_aligned (adapter : Adapter σ) (ha : o.algorithm = .breadthFirst)
    (hp : o.returnPartial = false) (neighbors : σ → StateId → Enumeration σ)
    (x : Table × σ) (y : ℕ × Table × σ) (h : Aligned x y) :
    (∃ out, Table.searchRound adapter o neighbors (fun world _ => (false, world)) x = .inr out ∧
      OverflowResult out) ∨
    Sum.LiftRel Aligned SameOutcome
      (Table.searchRound adapter o neighbors (fun world _ => (false, world)) x)
      (Table.reachableRound adapter o neighbors y) := by
  obtain ⟨table, world⟩ := x
  obtain ⟨cursor, other, world'⟩ := y
  obtain ⟨hlock, hstop, rfl, hlow⟩ := id h
  have hlen : table.nodes.length = other.nodes.length := hlock.length_eq
  unfold Table.searchRound Table.reachableRound
  dsimp only at hlock hlow ⊢
  by_cases hcur : cursor < other.nodes.length
  swap
  · right
    rw [if_neg hcur, hlock.queued.nextOpen_none (by omega), finish_returnPartial_false table hp]
    refine .inr ⟨_, rfl, ?_⟩
    unfold Table.finishReachable
    rw [← hlock.stop, hstop]
    exact ⟨iff_of_true rfl rfl, fun hne => absurd rfl hne, rfl, hlock.metrics⟩
  rw [if_pos hcur, hlock.queued.nextOpen_eq (by omega)]
  dsimp only
  generalize pollCancelled adapter world = poll
  by_cases hpoll : poll.1 = true
  · right
    rw [if_pos hpoll, if_pos hpoll]
    exact .inr ((hlock.stopWith .cancelled .cancelled (by decide)).sameOutcome hp _ _ rfl poll.2)
  rw [if_neg hpoll, if_neg hpoll, if_neg Bool.false_ne_true, hlock.metrics]
  by_cases hmax : spent o.maxExpanded other.metrics.expanded = true
  · right
    rw [if_pos hmax, if_pos hmax]
    exact .inr ((hlock.stopWith .limitReached .limit (by decide)).sameOutcome hp _ _ rfl poll.2)
  rw [if_neg hmax, if_neg hmax]
  have hexp := expand_alongside adapter ha hp neighbors (h.expands (by omega)) poll.2
  generalize (table.close cursor).expand (Table.searchEmit adapter o cursor) neighbors poll.2
    cursor = e at hexp ⊢
  generalize Table.expand _ (Table.reachableEmit adapter o cursor) neighbors poll.2 cursor = e' at hexp ⊢
  rcases hexp with hout | ⟨⟨hafter, hd, hcosts⟩, hworld⟩
  · left
    rw [hout.1]
    dsimp only
    rw [finish_returnPartial_false _ hp]
    exact ⟨_, rfl, _, rfl, hout.2⟩
  · right
    rw [hafter.stop, hworld]
    cases hs : e'.1.stop with
    | some verdict =>
      exact .inr (hafter.sameOutcome hp _ _ hs e'.2)
    | none =>
      refine .inl ⟨hafter, hafter.stop.trans hs, hworld, fun hlt => ?_⟩
      -- the next node is at least as far away as the one that has been expanded
      have hle := hafter.queued.sorted cursor (cursor+1) (Nat.le_succ _) hlt
      exact fun i hi => (hcosts i hi).trans (Nat.succ_le_succ hle)

theorem start_aligned (adapter : Adapter σ) (ha : o.algorithm = .breadthFirst)
    (hp : o.returnPartial = false) (start : StateId) (world : σ) :
    Aligned (Table.start adapter o world start)
      (0, { nodes := [{ state := start }], metrics := { generated := 1, peakFrontier := 1 } },
        world) := by
  unfold Table.start
  rw [ha, scoreState_breadthFirst, considerPartial_false _ _ _ _ hp]
  have hzero (i : ℕ) (hi : i < [({ state := start } : PfNode)].length) : i = 0 := by
    simpa using hi
  refine ⟨⟨⟨?_, ?_, ?_, ?_, ?_, ?_⟩, rfl, rfl, rfl, (fun _ hv => nomatch hv), rfl, rfl⟩, rfl, rfl, ?_⟩
  · intro i hi
    obtain rfl := hzero i hi
    rfl
  · intro i hi
    obtain rfl := hzero i hi
    rfl
  · intro i hi
    obtain rfl := hzero i hi
    rfl
  · intro i hi
    obtain rfl := hzero i hi
    rfl
  · intro i hi
    obtain rfl := hzero i hi
    exact Nat.zero_le _
  · intro i j hij hj
    obtain rfl := hzero j hj
    obtain rfl : i = 0 := Nat.le_zero.mp hij
    exact le_rfl
  · intro _ i hi
    obtain rfl := hzero i hi
    exact Nat.zero_le _

/-- Both runs have come back with the same or neither has. -/
def SameReturn (out : Option (SearchResult × σ)) (other : Option (ReachabilityResult × σ)) : Prop :=
  Option.Rel (fun x y => SameTraversal x.1 y.1 ∧ x.2 = y.2) out other

theorem search_sameReturn (adapter : Adapter σ) (neighbors : σ → StateId → Enumeration σ)
    (hn : adapter.neighbors = some neighbors)
    (hg : adapter.goal = some fun world _ => (false, world)) (ha : o.algorithm = .breadthFirst)
    (hp : o.returnPartial = false) (fuel : ℕ) (start : StateId) (world : σ) :
    OverflowResult (Table.search fuel (some adapter) start o world) ∨
      SameReturn (Table.search fuel (some adapter) start o world)
        (Table.reachable fuel (some adapter) start o world) := by
  have hvalid : pfValidInput adapter o = true := by
    unfold pfValidInput
    rw [ha, hp]
    rfl
  unfold Table.search Table.reachable
  simp only [hn, hg, if_pos hvalid]
  rcases FuelLoop.run_simulation _ _ Aligned SameOutcome OverflowResult
    (searchRound_aligned adapter ha hp neighbors) fuel _ _ (start_aligned adapter ha hp start world)
    with ⟨out, hout, hover⟩ | hrel
  · left
    rw [hout]
    exact hover
  · right
    revert hrel
    generalize FuelLoop.run (Table.searchRound adapter o neighbors _) fuel _ = x
    generalize FuelLoop.run (Table.reachableRound adapter o neighbors) fuel _ = y
    intro hrel
    cases hrel with
    | none => exact Option.Rel.none
    | some hsame =>
      obtain ⟨r, rfl, hr⟩ := hsame
      exact Option.Rel.some ⟨hr, rfl⟩

/-- An enumeration that carries a list along. -/
def Enumeration.withLog (log : List StateId) : Enumeration σ → Enumeration (σ × List StateId)
  | .finish enumerated world => .finish enumerated (world, log)
  | .emit transition world resume => .emit transition (world, log) fun emitted world =>
    (resume emitted world.1).withLog log

/-- The adapter with a list of the states that it has been asked to expand, in order. It answers
every callback as before. -/
def Adapter.recorded (adapter : Adapter σ) : Adapter (σ × List StateId) where
  neighbors := adapter.neighbors.map fun neighbors world state =>
    (neighbors world.1 state).withLog (world.2 ++ [state])
  goal := adapter.goal.map fun goal world state =>
    ((goal world.1 state).1, (goal world.1 state).2, world.2)
  heuristic := adapter.heuristic.map fun heuristic world state =>
    ((heuristic world.1 state).1, (heuristic world.1 state).2, world.2)
  partialRank := adapter.partialRank.map fun rank world state =>
    ((rank world.1 state).1, (rank world.1 state).2, world.2)
  cancelled := adapter.cancelled.map fun cancelled world =>
    ((cancelled world.1).1, (cancelled world.1).2, world.2)

theorem Ends.generated_le {ρ : Type} {status : ρ → Status} {metrics : ρ → Metrics}
    {out : Finished σ ρ} {other : Option (ρ × σ)} (h : Ends status metrics out other) (x : ρ × σ)
    (hx : other = some x) (ha : Allocated status (out.map fun r => (r.1, some r.2.1, r.2.2))) :
    (metrics x.1).generated*sizeofPfNode ≤ sizeMax := by
  cases h with
  | never => cases hx
  | same result c world _ hg =>
    cases hx
    exact hg
  | refused result c world _ _ hr => exact absurd hr (ha (result, some c, world) rfl)

/-- The two calls on contexts of any history, both of them with enough memory. -/
def SameCalls (adapter : Adapter σ) (c d : Context) (fuel : ℕ) (start : StateId) (o : Options)
    (world : σ) : Prop :=
  Allocated SearchResult.status (atrinikPfSearch fuel (some c) (some adapter) start (some o) world) →
  Allocated ReachabilityResult.status
    (atrinikPfReachable fuel (some d) (some adapter) start (some o) world) →
  SameReturn (outcome (atrinikPfSearch fuel (some c) (some adapter) start (some o) world))
    (outcome (atrinikPfReachable fuel (some d) (some adapter) start (some o) world))

theorem sameCalls_of_goal (adapter : Adapter σ) (neighbors : σ → StateId → Enumeration σ)
    (hn : adapter.neighbors = some neighbors)
    (hg : adapter.goal = some fun world _ => (false, world)) (c d : Context) (hc : LeftBehind c)
    (hd : LeftBehind d) (fuel : ℕ) (start : StateId) (o : Options)
    (ha : o.algorithm = .breadthFirst) (hp : o.returnPartial = false) (world : σ) :
    SameCalls adapter c d fuel start o world := by
  intro hs hr
  rw [outcome_search fuel c hc.shape _ start (some o) world hs,
    outcome_reachable fuel d hd.shape _ start (some o) world hr]
  rcases search_sameReturn adapter neighbors hn hg ha hp fuel start world with hover | hsame
  · obtain ⟨out, hout, hend⟩ := atrinikPfSearch_ends fuel c hc.shape (some adapter) start (some o)
      world
    rw [hout] at hs
    obtain ⟨x, hx, hge⟩ := hover
    -- so many nodes do not fit into the address space
    have hle := hend.generated_le x hx hs
    unfold sizeofPfNode sizeMax at hle
    omega
  · exact hsame

/-- A breadth-first search without a goal and a traversal from the same start return the same
and ask the adapter for the same, in the same order: for the adapter with a record of its
expansions, the records are equal too. -/
theorem breadth_first_eq_traversal (a : PureAdapter) (hgoal : ∀ state, a.goal state = false)
    (c d : Context) (hc : LeftBehind c) (hd : LeftBehind d) (start : StateId) (o : Options)
    (ha : o.algorithm = .breadthFirst) (hp : o.returnPartial = false) (fuel polls : ℕ) :
    SameCalls a.toAdapter c d fuel start o polls ∧
      SameCalls a.toAdapter.recorded c d fuel start o (polls, []) ∧
      (2^129 ≤ fuel →
        (∃ r, atrinikPfSearch fuel (some c) (some a.toAdapter) start (some o) polls = some r) ∧
        ∃ s, atrinikPfReachable fuel (some d) (some a.toAdapter) start (some o) polls =
          some s) := by
  have hgoal' : a.toAdapter.goal = some fun world _ => (false, world) := by
    unfold PureAdapter.toAdapter
    simp only [hgoal]
  refine ⟨?_, ?_, fun hfuel => ⟨?_, ?_⟩⟩
  · exact sameCalls_of_goal a.toAdapter _ rfl hgoal' c d hc hd fuel start o ha hp polls
  · refine sameCalls_of_goal a.toAdapter.recorded _ rfl ?_ c d hc hd fuel start o ha hp (polls, [])
    unfold Adapter.recorded
    rw [hgoal']
    rfl
  · exact search_returns a start c hc (some o) fuel polls hfuel
  · exact reachable_returns a start d hd (some o) fuel polls (by omega)

/-- The records of both runs on the sample graph, with a budget that stops them. -/
theorem breadth_first_eq_traversal_detour :
    SameReturn
        (outcome (atrinikPfSearch 9 (some (atrinikPfContextCreate fun _ => true))
          (some (detour (fun _ => false) fun _ => 0).toAdapter.recorded) 0
          (some { algorithm := .breadthFirst, maxExpanded := 3 }) (0, [])))
        (outcome (atrinikPfReachable 9 (some (atrinikPfContextCreate fun _ => true))
          (some (detour (fun _ => false) fun _ => 0).toAdapter.recorded) 0
          (some { algorithm := .breadthFirst, maxExpanded := 3 }) (0, []))) ∧
      (outcome (atrinikPfSearch 9 (some (atrinikPfContextCreate fun _ => true))
          (some (detour (fun _ => false) fun _ => 0).toAdapter.recorded) 0
          (some { algorithm := .breadthFirst, maxExpanded := 3 }) (0, []))).map (·.2.2) =
        some [0, 1, 2] := by
  refine ⟨(breadth_first_eq_traversal (detour (fun _ => false) fun _ => 0) (fun _ => rfl)
    (atrinikPfContextCreate fun _ => true) (atrinikPfContextCreate fun _ => true) (.created _)
    (.created _) 0 { algorithm := .breadthFirst, maxExpanded := 3 } rfl rfl 9 0).2.1 ?_ ?_, ?_⟩
  · decide +kernel
  · decide +kernel
  · decide +kernel

end LibAtrinik.Pathfinding

import LibAtrinik.FuelLoop
import LibAtrinik.PathfindingContext

namespace LibAtrinik.Pathfinding

variable {σ : Type}

/-- `adapter->cancelled != NULL && adapter->cancelled(adapter->context)` -/
def pollCancelled (adapter : Adapter σ) (world : σ) : Bool × σ :=
  match adapter.cancelled with
  | none => (false, world)
  | some cancelled => cancelled world

/-- The heuristic of a state, which only two of the algorithms consult. -/
def scoreState (adapter : Adapter σ) (algorithm : Algorithm) (world : σ) (state : StateId) :
    ℕ × σ :=
  if algorithm = .astar ∨ algorithm = .greedyBestFirst then
    match adapter.heuristic with
    | none => (0, world)
    | some heuristic => ((heuristic world state).1.toNat, (heuristic world state).2)
  else (0, world)

def rankState (adapter : Adapter σ) (world : σ) (state : StateId) : ℕ × σ :=
  match adapter.partialRank with
  | none => (0, world)
  | some partialRank => ((partialRank world state).1.toNat, (partialRank world state).2)

/-- The test by which `pf_consider_partial` replaces the node `current`. -/
def betterPartial (rank : ℕ) (candidate : PfNode) (currentRank : ℕ) (current : PfNode) : Bool :=
  rank < currentRank ∨ (rank = currentRank ∧ candidate.cost < current.cost) ∨
    (rank = currentRank ∧ candidate.cost = current.cost ∧ candidate.sequence < current.sequence)

def pfConsiderPartial (adapter : Adapter σ) (context : Context) (world : σ) (node : ℕ) :
    Context × σ :=
  if context.options.returnPartial then
    let candidate := context.node node
    let r := rankState adapter world candidate.state
    match context.partialNode with
    | none => ({ context with partialNode := some node, partialRank := r.1 }, r.2)
    | some best =>
      if betterPartial r.1 candidate context.partialRank (context.node best) then
        ({ context with partialNode := some node, partialRank := r.1 }, r.2)
      else (context, r.2)
  else (context, world)

def pfFrontierAvailable (context : Context) : Bool :=
  context.options.maxFrontier = 0 ∨ context.heapCount < context.options.maxFrontier

/-- A budget that is set and used up. -/
def spent (budget used : ℕ) : Bool := budget ≠ 0 ∧ used ≥ budget

/-- The branch of `pf_emit_transition` for a reachability traversal. -/
def pfEmitReachable (context : Context) (transition : Transition) : Bool × Context :=
  if (pfFindNode context transition.state).isSome then (true, context)
  else if spent context.options.maxGenerated context.metrics.generated then
    (false, pfStop context .limitReached .limit)
  else if spent context.options.maxFrontier (context.nodeCount-context.metrics.expanded) then
    (false, pfStop context .limitReached .limit)
  else
    let candidate : PfNode := {
      state := transition.state
      parent := context.activeNode
      sequence := context.nodeCount
      transitionData := transition.data }
    let added := pfAddNode context candidate
    let context := added.2
    match added.1 with
    | none => (false, pfStop context .outOfMemory .outOfMemory)
    | some _ =>
      let frontier := context.nodeCount-context.metrics.expanded
      (true, { context with metrics := { context.metrics with
        generated := context.metrics.generated+1
        peakFrontier := if frontier > context.metrics.peakFrontier then frontier
          else context.metrics.peakFrontier } })

/-- The branch of `pf_emit_transition` for a state that has no node yet. -/
def pfEmitNew (adapter : Adapter σ) (context : Context) (world : σ) (transition : Transition)
    (tentativeCost : ℕ) : Bool × Context × σ :=
  if spent context.options.maxGenerated context.metrics.generated then
    (false, pfStop context .limitReached .limit, world)
  else if !pfFrontierAvailable context then
    (false, pfStop context .limitReached .limit, world)
  else
    let score := scoreState adapter context.options.algorithm world transition.state
    let candidate : PfNode := {
      state := transition.state
      cost := tentativeCost
      heuristic := score.1
      priority := pfPriority context.options.algorithm tentativeCost score.1
      transitionData := transition.data
      parent := context.activeNode
      sequence := context.nodeCount }
    let added := pfAddNode context candidate
    match added.1 with
    | none => (false, pfStop added.2 .outOfMemory .outOfMemory, score.2)
    | some index =>
      let context := { added.2 with metrics := { added.2.metrics with
        generated := added.2.metrics.generated+1 } }
      let considered := pfConsiderPartial adapter context score.2 index
      let pushed := pfHeapPush considered.1 index
      if pushed.1 then (true, pushed.2, considered.2)
      else (false, pfStop pushed.2 .outOfMemory .outOfMemory, considered.2)

/-- The node with the cost and the origin that a better transition gives it. -/
def PfNode.improved (node : PfNode) (algorithm : Algorithm) (tentativeCost : ℕ)
    (transition : Transition) (parent : Option ℕ) : PfNode :=
  { node with
    cost := tentativeCost
    priority := pfPriority algorithm tentativeCost node.heuristic
    transitionData := transition.data
    parent := parent }

def PfNode.reopened (node : PfNode) : PfNode := { node with closed := false }

/-- The branch of `pf_emit_transition` for a node that the transition makes cheaper. -/
def pfEmitImproved (adapter : Adapter σ) (context : Context) (world : σ) (transition : Transition)
    (tentativeCost index : ℕ) : Bool × Context × σ :=
  let node := context.node index
  if node.closed && !pfFrontierAvailable context then
    (false, pfStop context .limitReached .limit, world)
  else
    let context := context.setNode index (node.improved context.options.algorithm tentativeCost
      transition context.activeNode)
    let considered := pfConsiderPartial adapter context world index
    let context := considered.1
    let node := context.node index
    if node.closed then
      let pushed := pfHeapPush (context.setNode index node.reopened) index
      if pushed.1 then (true, pushed.2, considered.2)
      else (false, pfStop pushed.2 .outOfMemory .outOfMemory, considered.2)
    else (true, pfHeapUp context (node.heapIndex.getD 0), considered.2)

def stepCost (algorithm : Algorithm) (transition : Transition) : ℕ :=
  if algorithm = .breadthFirst then 1 else transition.cost.toNat

/-- The branch of `pf_emit_transition` for a search. -/
def pfEmitSearch (adapter : Adapter σ) (context : Context) (world : σ) (transition : Transition) :
    Bool × Context × σ :=
  let parent := context.node (context.activeNode.getD 0)
  let cost := stepCost context.options.algorithm transition
  if uint64Max-parent.cost < cost then
    (false, pfStop context .costOverflow .costOverflow, world)
  else
    let tentativeCost := parent.cost+cost
    match pfFindNode context transition.state with
    | none => pfEmitNew adapter context world transition tentativeCost
    | some index =>
      if tentativeCost ≥ (context.node index).cost then (true, context, world)
      else pfEmitImproved adapter context world transition tentativeCost index

/-- `context->metrics.examined_transitions++` -/
def Context.countExamined (context : Context) : Context :=
  { context with metrics := { context.metrics with
      examinedTransitions := context.metrics.examinedTransitions+1 } }

def pfEmitTransition (adapter : Adapter σ) (context : Context) (world : σ)
    (transition : Option Transition) : Bool × Context × σ :=
  if context.stopped then (false, context, world)
  else match transition with
  | none => (false, pfStop context .adapterError .adapterError, world)
  | some transition =>
    let poll := pollCancelled adapter world
    if poll.1 then (false, pfStop context .cancelled .cancelled, poll.2)
    else if spent context.options.maxTransitions context.metrics.examinedTransitions then
      (false, pfStop context .limitReached .limit, poll.2)
    else
      let context := context.countExamined
      if context.reachability then
        let r := pfEmitReachable context transition
        (r.1, r.2, poll.2)
      else pfEmitSearch adapter context poll.2 transition

/-- The first loop of `pf_build_path`. A chain of more than `fuel` parents is `none`. -/
def pfPathCount (context : Context) : ℕ → Option ℕ → ℕ → Option ℕ
  | _, none, count => some count
  | 0, some _, _ => none
  | fuel+1, some current, count =>
    pfPathCount context fuel (context.node current).parent (count+1)

/-- The second loop of `pf_build_path`, from the last step to the first. -/
def pfPathWrite (context : Context) : ℕ → Option ℕ → List Step → List Step
  | 0, _, path => path
  | i+1, current, path =>
    let node := context.node (current.getD 0)
    pfPathWrite context i node.parent (path.set i ⟨node.state, node.transitionData⟩)

def pfReservePath (context : Context) (count : ℕ) : Bool × Context :=
  if count > context.pathCapacity then
    let r := pfGrowArray context.memory sizeofStep context.pathCapacity count
    match r.1 with
    | none => (false, { context with memory := r.2 })
    | some capacity =>
      (true, { context with
        memory := r.2
        path := reallocList context.path capacity
        pathCapacity := capacity })
  else (true, context)

/-- `none` when the parent chain does not end; else whether the path could be stored, with
the result and the context. Every chain of distinct nodes has at most `nodeCount` links. -/
def pfBuildPath (context : Context) (node : ℕ) (result : SearchResult) :
    Option (Bool × SearchResult × Context) :=
  match pfPathCount context context.nodeCount (some node) 0 with
  | none => none
  | some count =>
    let reserved := pfReservePath context count
    if reserved.1 then
      let context := reserved.2
      let path := pfPathWrite context count (some node) context.path
      let path := path.set 0 { path.getD 0 default with data := 0 }
      some (true,
        { result with
          steps := path.take count
          metrics := { result.metrics with totalCost := (context.node node).cost } },
        { context with path := path })
    else some (false, result, reserved.2)

def pfValidAlgorithm (algorithm : Algorithm) : Bool := algorithm ≠ .undeclared

/-- The end of `pf_finish_search` for a path to `node`. -/
def pfFinishPath (context : Context) (result : SearchResult) (node : ℕ) :
    Option (SearchResult × Context) :=
  (pfBuildPath context node result).map fun built =>
    if built.1 then built.2
    else ({ status := .outOfMemory, termination := .outOfMemory, metrics := built.2.2.metrics },
      built.2.2)

def pfFinishSearch (context : Context) (status : Status) (termination : Termination)
    (node : Option ℕ) : Option (SearchResult × Context) :=
  let result : SearchResult := {
    status := status, termination := termination, metrics := context.metrics }
  match node with
  | some node => pfFinishPath context result node
  | none =>
    match context.partialNode with
    | some best =>
      if context.options.returnPartial ∧ (termination = .exhausted ∨ termination = .limit ∨
          termination = .cancelled) then
        pfFinishPath context { result with status := .partialPath } best
      else some (result, context)
    | none => some (result, context)

/-- What a finished operation leaves: its result, the context and the adapter's own state.
`none` stands for an operation that does not come back. -/
abbrev Finished (σ ρ : Type) := Option (ρ × Context × σ)

def finishSearch (context : Context) (world : σ) (status : Status) (termination : Termination)
    (node : Option ℕ) : Finished σ SearchResult :=
  (pfFinishSearch context status termination node).map fun r => (r.1, r.2, world)

/-- Calling `neighbors` on the active node with `pf_emit_transition`, and what follows it. -/
def pfExpand (adapter : Adapter σ) (neighbors : σ → StateId → Enumeration σ) (context : Context)
    (world : σ) (node : ℕ) : Context × σ :=
  let r := (neighbors world (context.node node).state).run (pfEmitTransition adapter)
    { context with activeNode := some node }
  let context := { r.2.1 with activeNode := none }
  if !r.1 && !context.stopped then (pfStop context .adapterError .adapterError, r.2.2)
  else (context, r.2.2)

/-- One round of the main loop of `atrinik_pf_search`. -/
def pfSearchRound (adapter : Adapter σ) (neighbors : σ → StateId → Enumeration σ)
    (goal : σ → StateId → Bool × σ) :
    Context × σ → (Context × σ) ⊕ Finished σ SearchResult
  | (context, world) =>
    if context.heapCount = 0 then .inr (finishSearch context world .noPath .exhausted none)
    else
      let poll := pollCancelled adapter world
      if poll.1 then .inr (finishSearch context poll.2 .cancelled .cancelled none)
      else
        let popped := pfHeapPop context
        let node := popped.1
        let context := popped.2
        let reached := goal poll.2 (context.node node).state
        if reached.1 then
          let context := { context with metrics := { context.metrics with
            totalCost := (context.node node).cost } }
          .inr (finishSearch context reached.2 .found .goal (some node))
        else if spent context.options.maxExpanded context.metrics.expanded then
          .inr (finishSearch context reached.2 .limitReached .limit none)
        else
          let context := context.setNode node { context.node node with closed := true }
          let context := { context with metrics := { context.metrics with
            expanded := context.metrics.expanded+1 } }
          let expanded := pfExpand adapter neighbors context reached.2 node
          if expanded.1.stopped then
            .inr (finishSearch expanded.1 expanded.2 expanded.1.stopStatus
              expanded.1.stopTermination none)
          else .inl expanded

def atrinikPfContextCreate (memory : ℕ → Bool) : Context := { memory := memory }

def atrinikPfOptionsInit : Options := { algorithm := .astar }

/-- The input check of `atrinik_pf_search` after `neighbors` and `goal` have been found. -/
def pfValidInput (adapter : Adapter σ) (options : Options) : Bool :=
  pfValidAlgorithm options.algorithm &&
    !((options.algorithm = .astar || options.algorithm = .greedyBestFirst) &&
      adapter.heuristic.isNone) &&
    !(options.returnPartial && adapter.partialRank.isNone)

/-- The start node, stored and pushed; the flag is false if the memory for it is missing. -/
def pfSearchStart (adapter : Adapter σ) (context : Context) (world : σ) (start : StateId) :
    Bool × Context × σ :=
  let algorithm := context.options.algorithm
  let score := scoreState adapter algorithm world start
  let startNode : PfNode := {
    state := start
    heuristic := score.1
    priority := pfPriority algorithm 0 score.1 }
  let added := pfAddNode context startNode
  match added.1 with
  | none => (false, added.2, score.2)
  | some index =>
    let pushed := pfHeapPush added.2 index
    if pushed.1 then
      let context := { pushed.2 with metrics := { pushed.2.metrics with generated := 1 } }
      let considered := pfConsiderPartial adapter context score.2 index
      (true, considered.1, considered.2)
    else (false, pushed.2, score.2)

/-- `atrinik_pf_search` with a bound on the rounds of its main loop. The adapter's state and
the allocator are threaded through; `none` means that the loop has not been left in time. -/
def atrinikPfSearch (fuel : ℕ) (context : Option Context) (adapter : Option (Adapter σ))
    (start : StateId) (options : Option Options) (world : σ) :
    Option (SearchResult × Option Context × σ) :=
  let invalid : SearchResult := { status := .invalidInput, termination := .invalidInput }
  match context with
  | none => some (invalid, none, world)
  | some context =>
    let options := options.getD atrinikPfOptionsInit
    let context := pfReset context options
    match adapter with
    | none => some (invalid, some context, world)
    | some adapter =>
      match adapter.neighbors, adapter.goal with
      | some neighbors, some goal =>
        if pfValidInput adapter options then
          let started := pfSearchStart adapter context world start
          let finished := if started.1 then
            (FuelLoop.run (pfSearchRound adapter neighbors goal) fuel started.2).join
            else finishSearch started.2.1 started.2.2 .outOfMemory .outOfMemory none
          finished.map fun r => (r.1, some r.2.1, r.2.2)
        else some (invalid, some context, world)
      | _, _ => some (invalid, some context, world)

def pfReserveReachable (context : Context) : Bool × Context :=
  if context.nodeCount ≤ context.reachableCapacity then (true, context)
  else
    let r := pfGrowArray context.memory sizeofStateId context.reachableCapacity context.nodeCount
    match r.1 with
    | none => (false, { context with memory := r.2 })
    | some capacity =>
      (true, { context with
        memory := r.2
        reachable := reallocList context.reachable capacity
        reachableCapacity := capacity })

/-- The loop that copies the states of the nodes out. -/
def pfCopyReachable (context : Context) : Context :=
  let copy := fun (reachable : List StateId) i => reachable.set i (context.node i).state
  { context with reachable := (List.range context.nodeCount).foldl copy context.reachable }

def pfReachableResult (context : Context) (states : List StateId) : ReachabilityResult :=
  if context.stopped then
    { status := context.stopStatus, termination := context.stopTermination,
      states := states, metrics := context.metrics }
  else { status := .complete, termination := .exhausted,
         states := states, metrics := context.metrics }

/-- The end of `atrinik_pf_reachable`: the states are copied out and the status is set. -/
def pfReachableFinish (context : Context) (world : σ) : ReachabilityResult × Context × σ :=
  let reserved := pfReserveReachable context
  if reserved.1 then
    let context := pfCopyReachable reserved.2
    (pfReachableResult context (context.reachable.take context.nodeCount), context, world)
  else
    let context := pfStop reserved.2 .outOfMemory .outOfMemory
    (pfReachableResult context [], context, world)

/-- One round of the loop of `atrinik_pf_reachable`; the state carries the cursor. -/
def pfReachableRound (adapter : Adapter σ) (neighbors : σ → StateId → Enumeration σ) :
    (ℕ × Context × σ) → (ℕ × Context × σ) ⊕ (ReachabilityResult × Context × σ)
  | (cursor, context, world) =>
    if cursor < context.nodeCount then
      let poll := pollCancelled adapter world
      if poll.1 then .inr (pfReachableFinish (pfStop context .cancelled .cancelled) poll.2)
      else if spent context.options.maxExpanded context.metrics.expanded then
        .inr (pfReachableFinish (pfStop context .limitReached .limit) poll.2)
      else
        let context := { context with metrics := { context.metrics with
          expanded := context.metrics.expanded+1 } }
        let expanded := pfExpand adapter neighbors context poll.2 cursor
        if expanded.1.stopped then .inr (pfReachableFinish expanded.1 expanded.2)
        else .inl (cursor+1, expanded.1, expanded.2)
    else .inr (pfReachableFinish context world)

def atrinikPfReachable (fuel : ℕ) (context : Option Context) (adapter : Option (Adapter σ))
    (start : StateId) (options : Option Options) (world : σ) :
    Option (ReachabilityResult × Option Context × σ) :=
  let invalid : ReachabilityResult := { status := .invalidInput, termination := .invalidInput }
  match context with
  | none => some (invalid, none, world)
  | some context =>
    let options := options.getD atrinikPfOptionsInit
    let context := { pfReset context options with reachability := true }
    match adapter with
    | none => some (invalid, some context, world)
    | some adapter =>
      match adapter.neighbors with
      | none => some (invalid, some context, world)
      | some neighbors =>
        let added := pfAddNode context { state := start }
        match added.1 with
        | none =>
          some ({ status := .outOfMemory, termination := .outOfMemory }, some added.2, world)
        | some _ =>
          let context := { added.2 with metrics := { added.2.metrics with
            generated := 1, peakFrontier := 1 } }
          (FuelLoop.run (pfReachableRound adapter neighbors) fuel (0, context, world)).map
            fun r => (r.1, some r.2.1, r.2.2)

end LibAtrinik.Pathfinding

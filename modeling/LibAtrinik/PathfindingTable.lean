import Mathlib.Data.Prod.Lex
import Mathlib.Data.Finset.Card
import Mathlib.Data.Finset.Range
import LibAtrinik.PathfindingSearch

/-! What the search is for, without its data structures: a list of nodes in the order of
their discovery, of which the frontier is the set of nodes that are not closed. A state is
looked up in the list, and the next node is the least one of the frontier. There is no
hash table, no heap, no capacity and no allocation here. -/
namespace LibAtrinik.Pathfinding

variable {σ : Type}

/-- The order in which nodes leave the frontier. -/
def nodeKey (node : PfNode) : ℕ ×ₗ ℕ ×ₗ ℕ :=
  toLex (node.priority, toLex (node.heuristic, node.sequence))

/-- The nodes of a search and its counters. The heap index of a node has no meaning here
and stays `none`. -/
@[ext]
structure Table where
  nodes : List PfNode := []
  metrics : Metrics := {}
  stop : Option (Status × Termination) := none
  partialNode : Option ℕ := none
  partialRank : ℕ := uint64Max

def nodeAt (nodes : List PfNode) (i : ℕ) : PfNode := nodes.getD i default

/-- Node `i` exists and waits for its expansion. -/
def IsOpen (nodes : List PfNode) (i : ℕ) : Prop := i < nodes.length ∧ (nodeAt nodes i).closed = false

instance (nodes : List PfNode) (i : ℕ) : Decidable (IsOpen nodes i) :=
  inferInstanceAs (Decidable (_ ∧ _))

def openCount (nodes : List PfNode) : ℕ :=
  ((Finset.range nodes.length).filter (IsOpen nodes)).card

/-- Node `i` is the least one of the frontier. -/
def IsNext (nodes : List PfNode) (i : ℕ) : Prop :=
  IsOpen nodes i ∧ ∀ j < nodes.length, IsOpen nodes j → nodeKey (nodeAt nodes i) ≤ nodeKey (nodeAt nodes j)

instance (nodes : List PfNode) (i : ℕ) : Decidable (IsNext nodes i) :=
  inferInstanceAs (Decidable (_ ∧ _))

def nextOpen (nodes : List PfNode) : Option ℕ :=
  (List.range nodes.length).find? fun i => decide (IsNext nodes i)

def findState (nodes : List PfNode) (state : StateId) : Option ℕ :=
  nodes.findIdx? fun node => node.state = state

def Table.stopWith (table : Table) (status : Status) (termination : Termination) : Table :=
  { table with stop := some (status, termination) }

def Table.considerPartial (table : Table) (adapter : Adapter σ) (options : Options) (world : σ)
    (i : ℕ) : Table × σ :=
  if options.returnPartial then
    let candidate := nodeAt table.nodes i
    let r := rankState adapter world candidate.state
    match table.partialNode with
    | none => ({ table with partialNode := some i, partialRank := r.1 }, r.2)
    | some best =>
      if betterPartial r.1 candidate table.partialRank (nodeAt table.nodes best) then
        ({ table with partialNode := some i, partialRank := r.1 }, r.2)
      else (table, r.2)
  else (table, world)

/-- The largest frontier so far, after a node has been opened. -/
def Table.recordFrontier (table : Table) : Table :=
  { table with metrics := { table.metrics with
      peakFrontier := if openCount table.nodes > table.metrics.peakFrontier then
        openCount table.nodes else table.metrics.peakFrontier } }

def Table.emitNew (table : Table) (adapter : Adapter σ) (options : Options) (active : ℕ)
    (world : σ) (transition : Transition) (tentativeCost : ℕ) : Bool × Table × σ :=
  if spent options.maxGenerated table.metrics.generated then
    (false, table.stopWith .limitReached .limit, world)
  else if spent options.maxFrontier (openCount table.nodes) then
    (false, table.stopWith .limitReached .limit, world)
  else
    let score := scoreState adapter options.algorithm world transition.state
    let candidate : PfNode := {
      state := transition.state
      cost := tentativeCost
      heuristic := score.1
      priority := pfPriority options.algorithm tentativeCost score.1
      transitionData := transition.data
      parent := some active
      sequence := table.nodes.length }
    let grown := { table with
      nodes := table.nodes ++ [candidate]
      metrics := { table.metrics with generated := table.metrics.generated+1 } }
    let considered := grown.considerPartial adapter options score.2 table.nodes.length
    (true, considered.1.recordFrontier, considered.2)

def Table.emitImproved (table : Table) (adapter : Adapter σ) (options : Options) (active : ℕ)
    (world : σ) (transition : Transition) (tentativeCost i : ℕ) : Bool × Table × σ :=
  let node := nodeAt table.nodes i
  if node.closed && spent options.maxFrontier (openCount table.nodes) then
    (false, table.stopWith .limitReached .limit, world)
  else
    let improved := node.improved options.algorithm tentativeCost transition (some active)
    let updated := { table with nodes := table.nodes.set i improved }
    let considered := updated.considerPartial adapter options world i
    if node.closed then
      let reopened := { considered.1 with
        nodes := considered.1.nodes.set i improved.reopened }
      (true, reopened.recordFrontier, considered.2)
    else (true, considered.1, considered.2)

def Table.emitSearch (table : Table) (adapter : Adapter σ) (options : Options) (active : ℕ)
    (world : σ) (transition : Transition) : Bool × Table × σ :=
  let parent := nodeAt table.nodes active
  let cost := stepCost options.algorithm transition
  if uint64Max-parent.cost < cost then
    (false, table.stopWith .costOverflow .costOverflow, world)
  else match findState table.nodes transition.state with
  | none => table.emitNew adapter options active world transition (parent.cost+cost)
  | some i =>
    if parent.cost+cost ≥ (nodeAt table.nodes i).cost then (true, table, world)
    else table.emitImproved adapter options active world transition (parent.cost+cost) i

def Table.emitReachable (table : Table) (options : Options) (active : ℕ)
    (transition : Transition) : Bool × Table :=
  if (findState table.nodes transition.state).isSome then (true, table)
  else if spent options.maxGenerated table.metrics.generated then
    (false, table.stopWith .limitReached .limit)
  else if spent options.maxFrontier (table.nodes.length-table.metrics.expanded) then
    (false, table.stopWith .limitReached .limit)
  else
    let candidate : PfNode := {
      state := transition.state
      parent := some active
      sequence := table.nodes.length
      transitionData := transition.data }
    let frontier := table.nodes.length+1-table.metrics.expanded
    (true, { table with
      nodes := table.nodes ++ [candidate]
      metrics := { table.metrics with
        generated := table.metrics.generated+1
        peakFrontier := if frontier > table.metrics.peakFrontier then frontier
          else table.metrics.peakFrontier } })

def Table.countExamined (table : Table) : Table :=
  { table with metrics := { table.metrics with
      examinedTransitions := table.metrics.examinedTransitions+1 } }

/-- The checks that precede both kinds of emission. -/
def Table.emitGuarded (table : Table) (adapter : Adapter σ) (options : Options)
    (emit : Table → σ → Transition → Bool × Table × σ) (world : σ)
    (transition : Option Transition) : Bool × Table × σ :=
  if table.stop.isSome then (false, table, world)
  else match transition with
  | none => (false, table.stopWith .adapterError .adapterError, world)
  | some transition =>
    let poll := pollCancelled adapter world
    if poll.1 then (false, table.stopWith .cancelled .cancelled, poll.2)
    else if spent options.maxTransitions table.metrics.examinedTransitions then
      (false, table.stopWith .limitReached .limit, poll.2)
    else emit table.countExamined poll.2 transition

/-- Emission during a search, with `active` as the node being expanded. -/
def Table.searchEmit (adapter : Adapter σ) (options : Options) (active : ℕ) (table : Table)
    (world : σ) (transition : Option Transition) : Bool × Table × σ :=
  table.emitGuarded adapter options
    (fun table world transition => table.emitSearch adapter options active world transition)
    world transition

/-- Emission during a reachability traversal. -/
def Table.reachableEmit (adapter : Adapter σ) (options : Options) (active : ℕ) (table : Table)
    (world : σ) (transition : Option Transition) : Bool × Table × σ :=
  table.emitGuarded adapter options
    (fun table world transition =>
      let r := table.emitReachable options active transition
      (r.1, r.2, world))
    world transition

def Table.expand (table : Table) (emit : Table → σ → Option Transition → Bool × Table × σ)
    (neighbors : σ → StateId → Enumeration σ) (world : σ) (i : ℕ) : Table × σ :=
  let r := (neighbors world (nodeAt table.nodes i).state).run emit table
  if !r.1 && r.2.1.stop.isNone then (r.2.1.stopWith .adapterError .adapterError, r.2.2)
  else (r.2.1, r.2.2)

/-- The steps from the root of the parent chain to `current`, if the chain ends. -/
def pathTo (nodes : List PfNode) : ℕ → Option ℕ → Option (List Step)
  | _, none => some []
  | 0, some _ => none
  | fuel+1, some i =>
    (pathTo nodes fuel (nodeAt nodes i).parent).map
      (· ++ [⟨(nodeAt nodes i).state, (nodeAt nodes i).transitionData⟩])

/-- The steps along a chain of parents to a node without a parent. -/
theorem pathTo_chain (nodes : List PfNode) (chain : List ℕ) (r : ℕ)
    (hlast : chain.getLast? = some r) (hr : (nodeAt nodes r).parent = none)
    (hlinked : chain.IsChain fun a b => (nodeAt nodes a).parent = some b) (fuel : ℕ)
    (hfuel : chain.length ≤ fuel) :
    pathTo nodes fuel chain.head? = some ((chain.map fun i =>
      (⟨(nodeAt nodes i).state, (nodeAt nodes i).transitionData⟩ : Step)).reverse) := by
  induction chain generalizing fuel with
  | nil => cases hlast
  | cons a rest ih =>
    rw [List.length_cons] at hfuel
    obtain ⟨fuel, rfl⟩ : ∃ k, fuel = k+1 := ⟨fuel-1, by omega⟩
    rw [List.head?_cons, pathTo, List.map_cons, List.reverse_cons]
    cases rest with
    | nil =>
      obtain rfl : a = r := Option.some.inj hlast
      rw [hr]
      cases fuel <;> rfl
    | cons b rest =>
      obtain ⟨hab, hrest⟩ := List.isChain_cons_cons.mp hlinked
      rw [List.getLast?_cons_cons] at hlast
      have hbelow := ih hlast hrest fuel (by omega)
      rw [List.head?_cons] at hbelow
      rw [hab, hbelow]
      rfl

/-- The first step carries no transition. -/
def clearFirst : List Step → List Step
  | [] => []
  | step :: rest => { step with data := 0 } :: rest

def Table.finishPath (table : Table) (result : SearchResult) (i : ℕ) : Option SearchResult :=
  (pathTo table.nodes table.nodes.length (some i)).map fun steps =>
    { result with
      steps := clearFirst steps
      metrics := { result.metrics with totalCost := (nodeAt table.nodes i).cost } }

def Table.finish (table : Table) (options : Options) (status : Status)
    (termination : Termination) (node : Option ℕ) : Option SearchResult :=
  let result : SearchResult := {
    status := status, termination := termination, metrics := table.metrics }
  match node with
  | some i => table.finishPath result i
  | none =>
    match table.partialNode with
    | some best =>
      if options.returnPartial ∧ (termination = .exhausted ∨ termination = .limit ∨
          termination = .cancelled) then
        table.finishPath { result with status := .partialPath } best
      else some result
    | none => some result

def Table.close (table : Table) (i : ℕ) : Table :=
  { table with
    nodes := table.nodes.set i { nodeAt table.nodes i with closed := true }
    metrics := { table.metrics with expanded := table.metrics.expanded+1 } }

/-- One round of a search: the next node is tested and expanded. -/
def Table.searchRound (adapter : Adapter σ) (options : Options)
    (neighbors : σ → StateId → Enumeration σ) (goal : σ → StateId → Bool × σ) :
    Table × σ → (Table × σ) ⊕ Option (SearchResult × σ)
  | (table, world) =>
    match nextOpen table.nodes with
    | none => .inr ((table.finish options .noPath .exhausted none).map (·, world))
    | some i =>
      let poll := pollCancelled adapter world
      if poll.1 then .inr ((table.finish options .cancelled .cancelled none).map (·, poll.2))
      else
        let reached := goal poll.2 (nodeAt table.nodes i).state
        if reached.1 then
          .inr ((table.finish options .found .goal (some i)).map (·, reached.2))
        else if spent options.maxExpanded table.metrics.expanded then
          .inr ((table.finish options .limitReached .limit none).map (·, reached.2))
        else
          let expanded := (table.close i).expand (Table.searchEmit adapter options i) neighbors
            reached.2 i
          match expanded.1.stop with
          | some (status, termination) =>
            .inr ((expanded.1.finish options status termination none).map (·, expanded.2))
          | none => .inl expanded

/-- The table that holds the start node alone. -/
def Table.start (adapter : Adapter σ) (options : Options) (world : σ) (start : StateId) :
    Table × σ :=
  let score := scoreState adapter options.algorithm world start
  let table : Table := {
    nodes := [{
      state := start
      heuristic := score.1
      priority := pfPriority options.algorithm 0 score.1 }]
    metrics := { generated := 1, peakFrontier := 1 } }
  table.considerPartial adapter options score.2 0

def Table.search (fuel : ℕ) (adapter : Option (Adapter σ)) (start : StateId)
    (options : Options) (world : σ) : Option (SearchResult × σ) :=
  let invalid : SearchResult := { status := .invalidInput, termination := .invalidInput }
  match adapter with
  | none => some (invalid, world)
  | some adapter =>
    match adapter.neighbors, adapter.goal with
    | some neighbors, some goal =>
      if pfValidInput adapter options then
        (FuelLoop.run (Table.searchRound adapter options neighbors goal) fuel
          (Table.start adapter options world start)).join
      else some (invalid, world)
    | _, _ => some (invalid, world)

def Table.finishReachable (table : Table) : ReachabilityResult :=
  let verdict := table.stop.getD (.complete, .exhausted)
  { status := verdict.1, termination := verdict.2,
    states := table.nodes.map (·.state), metrics := table.metrics }

def Table.reachableRound (adapter : Adapter σ) (options : Options)
    (neighbors : σ → StateId → Enumeration σ) :
    ℕ × Table × σ → (ℕ × Table × σ) ⊕ (ReachabilityResult × σ)
  | (cursor, table, world) =>
    if cursor < table.nodes.length then
      let poll := pollCancelled adapter world
      if poll.1 then .inr ((table.stopWith .cancelled .cancelled).finishReachable, poll.2)
      else if spent options.maxExpanded table.metrics.expanded then
        .inr ((table.stopWith .limitReached .limit).finishReachable, poll.2)
      else
        let counted := { table with metrics := { table.metrics with
          expanded := table.metrics.expanded+1 } }
        let expanded := counted.expand (Table.reachableEmit adapter options cursor) neighbors
          poll.2 cursor
        if expanded.1.stop.isSome then .inr (expanded.1.finishReachable, expanded.2)
        else .inl (cursor+1, expanded.1, expanded.2)
    else .inr (table.finishReachable, world)

def Table.reachable (fuel : ℕ) (adapter : Option (Adapter σ)) (start : StateId)
    (options : Options) (world : σ) : Option (ReachabilityResult × σ) :=
  let invalid : ReachabilityResult := { status := .invalidInput, termination := .invalidInput }
  match adapter with
  | none => some (invalid, world)
  | some adapter =>
    match adapter.neighbors with
    | none => some (invalid, world)
    | some neighbors =>
      let table : Table := {
        nodes := [{ state := start }]
        metrics := { generated := 1, peakFrontier := 1 } }
      FuelLoop.run (Table.reachableRound adapter options neighbors) fuel (0, table, world)

end LibAtrinik.Pathfinding

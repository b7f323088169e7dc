import Mathlib

/-! The pathfinding core, `pathfinding/pathfinding.c`, as functions on an explicit context.
Every array is the list of its allocated slots, stale slots included, so that the counts
and capacities of the C structure keep their meaning. An index that the source encodes as
`PF_NONE` is `none`. -/
namespace LibAtrinik.Pathfinding

abbrev StateId := UInt64
abbrev TransitionData := UInt64

structure Transition where
  state : StateId
  cost : UInt64
  data : TransitionData
deriving DecidableEq, Repr, Inhabited

/-- The last constructor stands for every enumeration value outside the declared range. -/
inductive Algorithm where
  | astar
  | dijkstra
  | breadthFirst
  | greedyBestFirst
  | undeclared
deriving DecidableEq, Repr, Inhabited

inductive Status where
  | found
  | noPath
  | limitReached
  | cancelled
  | partialPath
  | complete
  | invalidInput
  | adapterError
  | outOfMemory
  | costOverflow
deriving DecidableEq, Repr, Inhabited

inductive Termination where
  | goal
  | exhausted
  | limit
  | cancelled
  | invalidInput
  | adapterError
  | outOfMemory
  | costOverflow
deriving DecidableEq, Repr, Inhabited

structure Metrics where
  expanded : ℕ := 0
  generated : ℕ := 0
  examinedTransitions : ℕ := 0
  peakFrontier : ℕ := 0
  totalCost : ℕ := 0
deriving DecidableEq, Repr, Inhabited

structure Step where
  state : StateId
  data : TransitionData
deriving DecidableEq, Repr, Inhabited

/-- The pointer and count of `atrinik_pf_result` are the list they delimit. -/
structure SearchResult where
  status : Status
  termination : Termination
  steps : List Step := []
  metrics : Metrics := {}
deriving DecidableEq, Repr, Inhabited

structure ReachabilityResult where
  status : Status
  termination : Termination
  states : List StateId := []
  metrics : Metrics := {}
deriving DecidableEq, Repr, Inhabited

structure Options where
  algorithm : Algorithm
  maxExpanded : ℕ := 0
  maxGenerated : ℕ := 0
  maxTransitions : ℕ := 0
  maxFrontier : ℕ := 0
  returnPartial : Bool := false
deriving DecidableEq, Repr, Inhabited

/-- One call of a `neighbors` callback: a sequence of calls of `emit`, each handing over the
adapter's current context and resumed with the answer of `emit` and the context after it,
and at the end the callback's own return value. -/
inductive Enumeration (σ : Type) where
  | finish (enumerated : Bool) (world : σ)
  | emit (transition : Option Transition) (world : σ) (resume : Bool → σ → Enumeration σ)

/-- Run an enumeration against an `emit` function acting on a state `β`. -/
def Enumeration.run {σ β : Type} (emit : β → σ → Option Transition → Bool × β × σ) :
    Enumeration σ → β → Bool × β × σ
  | .finish enumerated world, b => (enumerated, b, world)
  | .emit transition world resume, b =>
    let r := emit b world transition
    (resume r.1 r.2.2).run emit r.2.1

/-- The callbacks of an adapter whose context pointer leads to a value of type `σ`. A
callback that the adapter leaves `NULL` is `none`. -/
structure Adapter (σ : Type) where
  neighbors : Option (σ → StateId → Enumeration σ) := none
  goal : Option (σ → StateId → Bool × σ) := none
  heuristic : Option (σ → StateId → UInt64 × σ) := none
  partialRank : Option (σ → StateId → UInt64 × σ) := none
  cancelled : Option (σ → Bool × σ) := none

structure PfNode where
  state : StateId := 0
  cost : ℕ := 0
  heuristic : ℕ := 0
  priority : ℕ := 0
  transitionData : TransitionData := 0
  parent : Option ℕ := none
  heapIndex : Option ℕ := none
  sequence : ℕ := 0
  closed : Bool := false
deriving DecidableEq, Repr, Inhabited

/-- `atrinik_pf_context`. The field `memory` is not part of the C structure: it is the
sequence of answers that the allocator will give to the next calls of `realloc` and `calloc`. -/
structure Context where
  nodes : List PfNode := []
  nodeCount : ℕ := 0
  nodeCapacity : ℕ := 0
  hash : List ℕ := []
  hashCapacity : ℕ := 0
  heap : List ℕ := []
  heapCount : ℕ := 0
  heapCapacity : ℕ := 0
  path : List Step := []
  pathCapacity : ℕ := 0
  reachable : List StateId := []
  reachableCapacity : ℕ := 0
  options : Options := { algorithm := .astar }
  metrics : Metrics := {}
  stopStatus : Status := .found
  stopTermination : Termination := .goal
  stopped : Bool := false
  reachability : Bool := false
  activeNode : Option ℕ := some 0
  partialNode : Option ℕ := some 0
  partialRank : ℕ := 0
  memory : ℕ → Bool

def sizeMax : ℕ := 2^64-1
def uint64Max : ℕ := 2^64-1
def pfInitialCapacity : ℕ := 32
def sizeofPfNode : ℕ := 72
def sizeofSize : ℕ := 8
def sizeofStep : ℕ := 16
def sizeofStateId : ℕ := 8

def Context.node (context : Context) (i : ℕ) : PfNode := context.nodes.getD i default

def Context.setNode (context : Context) (i : ℕ) (node : PfNode) : Context :=
  { context with nodes := context.nodes.set i node }

def pfMultiplySize (left right : ℕ) : Option ℕ :=
  if left ≠ 0 ∧ right > sizeMax/left then none else some (left*right)

/-- The doubling loop of `pf_grow_array`; 64 doublings leave the range of `size_t`. -/
def pfGrowLoop (minimum : ℕ) : ℕ → ℕ → ℕ
  | 0, next => next
  | fuel+1, next =>
    if next < minimum then
      if next > sizeMax/2 then minimum else pfGrowLoop minimum fuel (next*2)
    else next

/-- The new capacity, if the array can grow, and the allocator after the request. -/
def pfGrowArray (memory : ℕ → Bool) (elementSize capacity minimum : ℕ) :
    Option ℕ × (ℕ → Bool) :=
  let next := pfGrowLoop minimum 64 (if capacity = 0 then pfInitialCapacity else capacity)
  match pfMultiplySize next elementSize with
  | none => (none, memory)
  | some _ => (if memory 0 then some next else none, fun n => memory (n+1))

/-- The contents of a block after `realloc` to a larger capacity. -/
def reallocList {α : Type} [Inhabited α] (xs : List α) (capacity : ℕ) : List α :=
  xs ++ List.replicate (capacity-xs.length) default

def pfHashState (state : StateId) : UInt64 :=
  let value := state ^^^ (state >>> 30)
  let value := value*0xbf58476d1ce4e5b9
  let value := value ^^^ (value >>> 27)
  let value := value*0x94d049bb133111eb
  value ^^^ (value >>> 31)

/-- The probe loop of `pf_hash_slot`. A table of `hashCapacity` slots is traversed once. -/
def pfHashProbe (context : Context) (state : StateId) : ℕ → ℕ → ℕ
  | 0, slot => slot
  | fuel+1, slot =>
    let entry := context.hash.getD slot 0
    if entry ≠ 0 ∧ (context.node (entry-1)).state ≠ state then
      pfHashProbe context state fuel ((slot+1) &&& (context.hashCapacity-1))
    else slot

def pfHashSlot (context : Context) (state : StateId) : ℕ :=
  pfHashProbe context state context.hashCapacity
    ((pfHashState state).toNat &&& (context.hashCapacity-1))

/-- The loop that re-enters the nodes from `i` on into a cleared table. -/
def pfRehash (context : Context) : ℕ → ℕ → Context
  | 0, _ => context
  | remaining+1, i =>
    pfRehash { context with
      hash := context.hash.set (pfHashSlot context (context.node i).state) (i+1) } remaining (i+1)

def pfRebuildHash (context : Context) (capacity : ℕ) : Bool × Context :=
  if capacity < 2 ∨ (capacity &&& (capacity-1)) ≠ 0 then (false, context)
  else match pfMultiplySize capacity sizeofSize with
  | none => (false, context)
  | some _ =>
    let granted := context.memory 0
    let context := { context with memory := fun n => context.memory (n+1) }
    if granted then
      (true, pfRehash { context with hash := List.replicate capacity 0, hashCapacity := capacity }
        context.nodeCount 0)
    else (false, context)

def pfPrepareHash (context : Context) : Bool × Context :=
  if context.hashCapacity = 0 then pfRebuildHash context 64
  else if context.nodeCount+1 ≤ context.hashCapacity/2 then (true, context)
  else if context.hashCapacity > sizeMax/2 then (false, context)
  else pfRebuildHash context (context.hashCapacity*2)

def pfFindNode (context : Context) (state : StateId) : Option ℕ :=
  if context.hashCapacity = 0 then none
  else
    let entry := context.hash.getD (pfHashSlot context state) 0
    if entry = 0 then none else some (entry-1)

/-- The storage part of `pf_add_node`: room for one more node. -/
def pfReserveNode (context : Context) : Bool × Context :=
  if context.nodeCount = context.nodeCapacity then
    let r := pfGrowArray context.memory sizeofPfNode context.nodeCapacity (context.nodeCount+1)
    match r.1 with
    | none => (false, { context with memory := r.2 })
    | some capacity =>
      (true, { context with
        memory := r.2
        nodes := reallocList context.nodes capacity
        nodeCapacity := capacity })
  else (true, context)

/-- The new node's index, or `none` when the node cannot be stored. -/
def pfAddNode (context : Context) (node : PfNode) : Option ℕ × Context :=
  let prepared := pfPrepareHash context
  if prepared.1 then
    let reserved := pfReserveNode prepared.2
    if reserved.1 then
      let context := reserved.2
      let index := context.nodeCount
      let context := { context.setNode index node with nodeCount := index+1 }
      (some index, { context with hash := context.hash.set (pfHashSlot context node.state) (index+1) })
    else (none, reserved.2)
  else (none, prepared.2)

def pfNodeBefore (context : Context) (left right : ℕ) : Bool :=
  let lhs := context.node left
  let rhs := context.node right
  if lhs.priority ≠ rhs.priority then lhs.priority < rhs.priority
  else if lhs.heuristic ≠ rhs.heuristic then lhs.heuristic < rhs.heuristic
  else lhs.sequence < rhs.sequence

def Context.heapAt (context : Context) (position : ℕ) : ℕ := context.heap.getD position 0

def Context.setHeapIndex (context : Context) (i : ℕ) (position : Option ℕ) : Context :=
  context.setNode i { context.node i with heapIndex := position }

def pfHeapSwap (context : Context) (left right : ℕ) : Context :=
  let temporary := context.heapAt left
  let context := { context with heap := context.heap.set left (context.heapAt right) }
  let context := { context with heap := context.heap.set right temporary }
  let context := context.setHeapIndex (context.heapAt left) (some left)
  context.setHeapIndex (context.heapAt right) (some right)

def pfHeapUpLoop : ℕ → Context → ℕ → Context
  | 0, context, _ => context
  | fuel+1, context, position =>
    if position ≠ 0 then
      let parent := (position-1)/2
      if pfNodeBefore context (context.heapAt position) (context.heapAt parent) then
        pfHeapUpLoop fuel (pfHeapSwap context position parent) parent
      else context
    else context

/-- The position shrinks in every round of the loop. -/
def pfHeapUp (context : Context) (position : ℕ) : Context :=
  pfHeapUpLoop position context position

/-- The position that the two comparisons of a round of `pf_heap_down` leave in `best`. -/
def pfHeapBest (context : Context) (position : ℕ) : ℕ :=
  let left := position*2+1
  let best := if left < context.heapCount ∧
    pfNodeBefore context (context.heapAt left) (context.heapAt position) then left else position
  if left+1 < context.heapCount ∧
    pfNodeBefore context (context.heapAt (left+1)) (context.heapAt best) then left+1 else best

def pfHeapDownLoop : ℕ → Context → ℕ → Context
  | 0, context, _ => context
  | fuel+1, context, position =>
    let best := pfHeapBest context position
    if best = position then context
    else pfHeapDownLoop fuel (pfHeapSwap context position best) best

/-- The position grows in every round of the loop and stays below `heapCount`. -/
def pfHeapDown (context : Context) (position : ℕ) : Context :=
  pfHeapDownLoop context.heapCount context position

def pfReserveHeap (context : Context) : Bool × Context :=
  if context.heapCount = context.heapCapacity then
    let r := pfGrowArray context.memory sizeofSize context.heapCapacity (context.heapCount+1)
    match r.1 with
    | none => (false, { context with memory := r.2 })
    | some capacity =>
      (true, { context with
        memory := r.2
        heap := reallocList context.heap capacity
        heapCapacity := capacity })
  else (true, context)

def pfHeapPush (context : Context) (node : ℕ) : Bool × Context :=
  let reserved := pfReserveHeap context
  if reserved.1 then
    let context := reserved.2
    let context := { context with heap := context.heap.set context.heapCount node }
    let context := context.setHeapIndex node (some context.heapCount)
    let context := { context with heapCount := context.heapCount+1 }
    let context := pfHeapUp context (context.heapCount-1)
    let context := if context.heapCount > context.metrics.peakFrontier then
      { context with metrics := { context.metrics with peakFrontier := context.heapCount } }
      else context
    (true, context)
  else (false, reserved.2)

def pfHeapPop (context : Context) : ℕ × Context :=
  let node := context.heapAt 0
  let context := { context with heapCount := context.heapCount-1 }
  let context := context.setHeapIndex node none
  let context := if context.heapCount ≠ 0 then
    let context := { context with heap := context.heap.set 0 (context.heapAt context.heapCount) }
    let context := context.setHeapIndex (context.heapAt 0) (some 0)
    pfHeapDown context 0
    else context
  (node, context)

def pfStop (context : Context) (status : Status) (termination : Termination) : Context :=
  { context with stopped := true, stopStatus := status, stopTermination := termination }

def pfReset (context : Context) (options : Options) : Context :=
  { context with
    nodeCount := 0
    heapCount := 0
    options := options
    metrics := {}
    hash := List.replicate context.hash.length 0
    stopStatus := .invalidInput
    stopTermination := .invalidInput
    stopped := false
    reachability := false
    activeNode := none
    partialNode := none
    partialRank := uint64Max }

def pfPriority (algorithm : Algorithm) (cost heuristic : ℕ) : ℕ :=
  if algorithm = .greedyBestFirst then heuristic
  else if algorithm = .astar ∧ uint64Max-cost < heuristic then uint64Max
  else if algorithm = .astar then cost+heuristic else cost

end LibAtrinik.Pathfinding

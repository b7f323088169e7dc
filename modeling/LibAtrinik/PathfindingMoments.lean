import LibAtrinik.Trace
import LibAtrinik.PathfindingReuse

/-! Every context that an operation passes through: after the start node, after each node that is
taken from the frontier, after each emission, and at the end. An adapter may emit as often as it
likes, also after a stop, and the operation need not come back. -/
namespace LibAtrinik.Pathfinding

open Trace

variable {σ : Type} {search : Bool} {adapter : Adapter σ} {options : Options}

/-- The states that `emit` leaves, one for each emission. -/
def Enumeration.points {β : Type} (emit : β → σ → Option Transition → Bool × β × σ) :
    Enumeration σ → β → List β
  | .finish _ _, _ => []
  | .emit transition world resume, b =>
    let r := emit b world transition
    r.2.1 :: (resume r.1 r.2.2).points emit r.2.1

/-- The contexts of `pfExpand`. -/
def pfExpandPoints (adapter : Adapter σ) (neighbors : σ → StateId → Enumeration σ)
    (context : Context) (world : σ) (node : ℕ) : List Context :=
  let active := { context with activeNode := some node }
  active :: ((neighbors world (context.node node).state).points (pfEmitTransition adapter) active ++
    [(pfExpand adapter neighbors context world node).1])

/-- The contexts of `pfSearchRound`. -/
def pfSearchRoundPoints (adapter : Adapter σ) (neighbors : σ → StateId → Enumeration σ)
    (goal : σ → StateId → Bool × σ) : Context × σ → List Context
  | (context, world) =>
    if context.heapCount = 0 then []
    else
      let poll := pollCancelled adapter world
      if poll.1 then []
      else
        let popped := pfHeapPop context
        let node := popped.1
        let context := popped.2
        let reached := goal poll.2 (context.node node).state
        if reached.1 then
          [context, { context with metrics := { context.metrics with
            totalCost := (context.node node).cost } }]
        else if spent context.options.maxExpanded context.metrics.expanded then [context]
        else context :: context.closeNode node ::
          pfExpandPoints adapter neighbors (context.closeNode node) reached.2 node

/-- The contexts of `pfReachableRound`, each with the number of nodes that have been expanded or
are being expanded then. -/
def pfReachableRoundPoints (adapter : Adapter σ) (neighbors : σ → StateId → Enumeration σ) :
    ℕ × Context × σ → List (ℕ × Context)
  | (cursor, context, world) =>
    if cursor < context.nodeCount then
      let poll := pollCancelled adapter world
      if poll.1 then
        let stopped := pfStop context .cancelled .cancelled
        [(cursor, stopped), (cursor, (pfReachableFinish stopped poll.2).2.1)]
      else if spent context.options.maxExpanded context.metrics.expanded then
        let stopped := pfStop context .limitReached .limit
        [(cursor, stopped), (cursor, (pfReachableFinish stopped poll.2).2.1)]
      else
        let context := { context with metrics := { context.metrics with
          expanded := context.metrics.expanded+1 } }
        let expanded := pfExpand adapter neighbors context poll.2 cursor
        let left := if expanded.1.stopped then [(pfReachableFinish expanded.1 expanded.2).2.1] else []
        ((context :: pfExpandPoints adapter neighbors context poll.2 cursor) ++ left).map
          (cursor+1, ·)
    else [(cursor, (pfReachableFinish context world).2.1)]

/-- No request for memory has been refused up to here: a refusal stops the operation so. -/
def Context.granted (c : Context) : Bool :=
  !(c.stopped && c.stopStatus = .outOfMemory && c.stopTermination = .outOfMemory)

/-- A context at some point of an operation, the number of states that are open then, and whether
all the memory that was asked for has been granted. -/
structure Moment where
  context : Context
  openStates : ℕ
  granted : Bool

/-- In a search the open states are those of the nodes that are not closed. -/
def searchMoment (c : Context) : Moment where
  context := c
  openStates := openCount c.nodeList
  granted := c.granted

/-- The number of nodes after the first `taken` ones. -/
def waiting (taken count : ℕ) : ℕ := ((Finset.range count).filter (taken ≤ ·)).card

/-- A traversal does not close nodes: the open states are those after the nodes that have been
taken from the queue. -/
def traversalMoment (p : ℕ × Context) : Moment where
  context := p.2
  openStates := waiting p.1 p.2.nodeList.length
  granted := p.2.granted

/-- Every moment of a call of `atrinik_pf_search`. -/
def atrinikPfSearchMoments (fuel : ℕ) (context : Context) (adapter : Option (Adapter σ))
    (start : StateId) (options : Option Options) (world : σ) : List Moment :=
  let options := options.getD atrinikPfOptionsInit
  let context := pfReset context options
  searchMoment context ::
    match adapter with
    | none => []
    | some adapter =>
      match adapter.neighbors, adapter.goal with
      | some neighbors, some goal =>
        if pfValidInput adapter options then
          let started := pfSearchStart adapter context world start
          if started.1 then
            let left := (FuelLoop.run (pfSearchRound adapter neighbors goal) fuel started.2).join
            (started.2.1 :: (loop (pfSearchRound adapter neighbors goal)
              (pfSearchRoundPoints adapter neighbors goal) fuel started.2 ++
                left.toList.map (·.2.1))).map searchMoment
          else [{ searchMoment started.2.1 with granted := false }]
        else []
      | _, _ => []

/-- Every moment of a call of `atrinik_pf_reachable`. -/
def atrinikPfReachableMoments (fuel : ℕ) (context : Context) (adapter : Option (Adapter σ))
    (start : StateId) (options : Option Options) (world : σ) : List Moment :=
  let context := { pfReset context (options.getD atrinikPfOptionsInit) with reachability := true }
  traversalMoment (0, context) ::
    match adapter with
    | none => []
    | some adapter =>
      match adapter.neighbors with
      | none => []
      | some neighbors =>
        let added := pfAddNode context { state := start }
        match added.1 with
        | none => [{ traversalMoment (0, added.2) with granted := false }]
        | some _ =>
          let context := { added.2 with metrics := { added.2.metrics with
            generated := 1, peakFrontier := 1 } }
          ((0, context) :: loop (pfReachableRound adapter neighbors)
            (pfReachableRoundPoints adapter neighbors) fuel (0, context, world)).map traversalMoment

/-- How a call of `atrinik_pf_search` goes: what comes back, if anything does, and the moments. -/
inductive SearchCall (fuel : ℕ) (fresh : Context) (start : StateId) (world : σ) :
    Option (Adapter σ) → Option (SearchResult × Option Context × σ) → List Moment → Prop where
  | rejected (adapter : Option (Adapter σ)) : SearchCall fuel fresh start world adapter
      (some ({ status := .invalidInput, termination := .invalidInput }, some fresh, world))
      [searchMoment fresh]
  | unstarted (adapter : Adapter σ) (c : Context) (w : σ)
      (h : pfSearchStart adapter fresh world start = (false, c, w)) :
      SearchCall fuel fresh start world (some adapter)
        (some ({ status := .outOfMemory, termination := .outOfMemory, metrics := c.metrics },
          some c, w))
        [searchMoment fresh, { searchMoment c with granted := false }]
  | ran (adapter : Adapter σ) (neighbors : σ → StateId → Enumeration σ)
      (goal : σ → StateId → Bool × σ) (hn : adapter.neighbors = some neighbors)
      (hg : adapter.goal = some goal) (started : Context × σ)
      (h : pfSearchStart adapter fresh world start = (true, started)) :
      SearchCall fuel fresh start world (some adapter)
        ((FuelLoop.run (pfSearchRound adapter neighbors goal) fuel started).join.map
          fun r => (r.1, some r.2.1, r.2.2))
        (searchMoment fresh :: (started.1 :: (loop (pfSearchRound adapter neighbors goal)
          (pfSearchRoundPoints adapter neighbors goal) fuel started ++
            (FuelLoop.run (pfSearchRound adapter neighbors goal) fuel started).join.toList.map
              (·.2.1))).map searchMoment)

theorem atrinikPfSearch_call (fuel : ℕ) (c : Context) (adapter : Option (Adapter σ))
    (start : StateId) (options : Option Options) (world : σ) :
    SearchCall fuel (pfReset c (options.getD atrinikPfOptionsInit)) start world adapter
      (atrinikPfSearch fuel (some c) adapter start options world)
      (atrinikPfSearchMoments fuel c adapter start options world) := by
  unfold atrinikPfSearch atrinikPfSearchMoments
  dsimp only
  generalize pfReset c _ = fresh
  cases adapter with
  | none => exact .rejected none
  | some adapter =>
    dsimp only
    cases hn : adapter.neighbors with
    | none => exact .rejected _
    | some neighbors =>
      cases hg : adapter.goal with
      | none => exact .rejected _
      | some goal =>
        dsimp only
        by_cases hv : pfValidInput adapter (options.getD atrinikPfOptionsInit) = true
        swap
        · simp only [if_neg hv]
          exact .rejected _
        simp only [if_pos hv]
        rcases hstart : pfSearchStart adapter fresh world start with ⟨_ | _, started⟩
        · simp only [Bool.false_eq_true, if_false, finishSearch_outOfMemory]
          exact .unstarted adapter started.1 started.2 hstart
        · simp only [if_true]
          exact .ran adapter neighbors goal hn hg started hstart

/-- How a call of `atrinik_pf_reachable` goes. -/
inductive TraversalCall (fuel : ℕ) (fresh : Context) (start : StateId) (world : σ) :
    Option (Adapter σ) → Option (ReachabilityResult × Option Context × σ) → List Moment → Prop where
  | rejected (adapter : Option (Adapter σ)) : TraversalCall fuel fresh start world adapter
      (some ({ status := .invalidInput, termination := .invalidInput }, some fresh, world))
      [traversalMoment (0, fresh)]
  | unstarted (adapter : Adapter σ) (c : Context)
      (h : pfAddNode fresh { state := start } = (none, c)) :
      TraversalCall fuel fresh start world (some adapter)
        (some ({ status := .outOfMemory, termination := .outOfMemory }, some c, world))
        [traversalMoment (0, fresh), { traversalMoment (0, c) with granted := false }]
  | ran (adapter : Adapter σ) (neighbors : σ → StateId → Enumeration σ)
      (hn : adapter.neighbors = some neighbors) (i : ℕ) (c started : Context)
      (h : pfAddNode fresh { state := start } = (some i, c))
      (hs : { c with metrics := { c.metrics with generated := 1, peakFrontier := 1 } } = started) :
      TraversalCall fuel fresh start world (some adapter)
        ((FuelLoop.run (pfReachableRound adapter neighbors) fuel (0, started, world)).map
          fun r => (r.1, some r.2.1, r.2.2))
        (traversalMoment (0, fresh) :: ((0, started) :: loop (pfReachableRound adapter neighbors)
          (pfReachableRoundPoints adapter neighbors) fuel (0, started, world)).map traversalMoment)

theorem atrinikPfReachable_call (fuel : ℕ) (c : Context) (adapter : Option (Adapter σ))
    (start : StateId) (options : Option Options) (world : σ) :
    TraversalCall fuel
      { pfReset c (options.getD atrinikPfOptionsInit) with reachability := true } start world adapter
      (atrinikPfReachable fuel (some c) adapter start options world)
      (atrinikPfReachableMoments fuel c adapter start options world) := by
  unfold atrinikPfReachable atrinikPfReachableMoments
  dsimp only
  generalize ({ pfReset c _ with reachability := true } : Context) = fresh
  cases adapter with
  | none => exact .rejected none
  | some adapter =>
    dsimp only
    cases hn : adapter.neighbors with
    | none => exact .rejected _
    | some neighbors =>
      dsimp only
      rcases hadd : pfAddNode fresh { state := start } with ⟨_ | i, added⟩
      · exact .unstarted adapter added hadd
      · exact .ran adapter neighbors hn i added _ hadd rfl

/-- A round of a search takes a node from the frontier. -/
structure Takes (adapter : Adapter σ) (c : Context) (world : σ) (i : ℕ) (p : Context) (w : σ) :
    Prop where
  nonempty : c.heapCount ≠ 0
  poll : pollCancelled adapter world = (false, w)
  pop : pfHeapPop c = (i, p)

/-- What a round of a search does, with its contexts. -/
inductive SearchRound (adapter : Adapter σ) (neighbors : σ → StateId → Enumeration σ)
    (goal : σ → StateId → Bool × σ) (c : Context) (world : σ) :
    (Context × σ) ⊕ Finished σ SearchResult → List Context → Prop where
  | exhausted (h : c.heapCount = 0) : SearchRound adapter neighbors goal c world
      (.inr (finishSearch c world .noPath .exhausted none)) []
  | cancelled (w : σ) (h : c.heapCount ≠ 0) (hpoll : pollCancelled adapter world = (true, w)) :
      SearchRound adapter neighbors goal c world
        (.inr (finishSearch c w .cancelled .cancelled none)) []
  | found (i : ℕ) (p p' : Context) (w w' : σ) (h : Takes adapter c world i p w)
      (hgoal : goal w (p.node i).state = (true, w'))
      (hp : { p with metrics := { p.metrics with totalCost := (p.node i).cost } } = p') :
      SearchRound adapter neighbors goal c world
        (.inr (finishSearch p' w' .found .goal (some i))) [p, p']
  | limited (i : ℕ) (p : Context) (w w' : σ) (h : Takes adapter c world i p w)
      (hgoal : goal w (p.node i).state = (false, w'))
      (hmax : spent p.options.maxExpanded p.metrics.expanded = true) :
      SearchRound adapter neighbors goal c world
        (.inr (finishSearch p w' .limitReached .limit none)) [p]
  | stopped (i : ℕ) (p : Context) (w w' : σ) (e : Context × σ) (h : Takes adapter c world i p w)
      (hgoal : goal w (p.node i).state = (false, w'))
      (hmax : ¬spent p.options.maxExpanded p.metrics.expanded = true)
      (he : pfExpand adapter neighbors (p.closeNode i) w' i = e) (hs : e.1.stopped = true) :
      SearchRound adapter neighbors goal c world
        (.inr (finishSearch e.1 e.2 e.1.stopStatus e.1.stopTermination none))
        (p :: p.closeNode i :: pfExpandPoints adapter neighbors (p.closeNode i) w' i)
  | expanded (i : ℕ) (p : Context) (w w' : σ) (e : Context × σ) (h : Takes adapter c world i p w)
      (hgoal : goal w (p.node i).state = (false, w'))
      (hmax : ¬spent p.options.maxExpanded p.metrics.expanded = true)
      (he : pfExpand adapter neighbors (p.closeNode i) w' i = e) (hs : e.1.stopped = false) :
      SearchRound adapter neighbors goal c world (.inl e)
        (p :: p.closeNode i :: pfExpandPoints adapter neighbors (p.closeNode i) w' i)

theorem pfSearchRound_round (adapter : Adapter σ) (neighbors : σ → StateId → Enumeration σ)
    (goal : σ → StateId → Bool × σ) (c : Context) (world : σ) :
    SearchRound adapter neighbors goal c world (pfSearchRound adapter neighbors goal (c, world))
      (pfSearchRoundPoints adapter neighbors goal (c, world)) := by
  unfold pfSearchRound pfSearchRoundPoints
  by_cases h0 : c.heapCount = 0
  · simp only [if_pos h0]
    exact .exhausted h0
  simp only [if_neg h0]
  rcases hpoll : pollCancelled adapter world with ⟨_ | _, w⟩
  swap
  · simp only [if_true]
    exact .cancelled w h0 hpoll
  simp only [Bool.false_eq_true, if_false]
  rcases hpop : pfHeapPop c with ⟨i, p⟩
  have h : Takes adapter c world i p w := ⟨h0, hpoll, hpop⟩
  dsimp only
  rcases hgoal : goal w (p.node i).state with ⟨_ | _, w'⟩
  swap
  · simp only [if_true]
    exact .found i p _ w w' h hgoal rfl
  simp only [Bool.false_eq_true, if_false]
  by_cases hmax : spent p.options.maxExpanded p.metrics.expanded = true
  · simp only [if_pos hmax]
    exact .limited i p w w' h hgoal hmax
  simp only [if_neg hmax]
  rw [setNode_closed]
  cases hs : (pfExpand adapter neighbors (p.closeNode i) w' i).1.stopped with
  | true =>
    simp only [if_true]
    exact .stopped i p w w' _ h hgoal hmax rfl hs
  | false =>
    simp only [Bool.false_eq_true, if_false]
    exact .expanded i p w w' _ h hgoal hmax rfl hs

/-- What a round of a traversal does, with its contexts. -/
inductive TraversalRound (adapter : Adapter σ) (neighbors : σ → StateId → Enumeration σ)
    (cursor : ℕ) (c : Context) (world : σ) :
    (ℕ × Context × σ) ⊕ (ReachabilityResult × Context × σ) → List (ℕ × Context) → Prop where
  | exhausted (h : ¬cursor < c.nodeCount) : TraversalRound adapter neighbors cursor c world
      (.inr (pfReachableFinish c world)) [(cursor, (pfReachableFinish c world).2.1)]
  | refused (w : σ) (status : Status) (termination : Termination) (stopped : Context)
      (hs : pfStop c status termination = stopped)
      (h : (pollCancelled adapter world).1 = true ∨
        spent c.options.maxExpanded c.metrics.expanded = true) :
      TraversalRound adapter neighbors cursor c world (.inr (pfReachableFinish stopped w))
        [(cursor, stopped), (cursor, (pfReachableFinish stopped w).2.1)]
  | stopped (w : σ) (counted : Context) (e : Context × σ) (h : cursor < c.nodeCount)
      (hmax : ¬spent c.options.maxExpanded c.metrics.expanded = true)
      (hc : { c with metrics := { c.metrics with expanded := c.metrics.expanded+1 } } = counted)
      (he : pfExpand adapter neighbors counted w cursor = e) (hs : e.1.stopped = true) :
      TraversalRound adapter neighbors cursor c world (.inr (pfReachableFinish e.1 e.2))
        ((cursor+1, counted) :: ((pfExpandPoints adapter neighbors counted w cursor).map
          (cursor+1, ·) ++ [(cursor+1, (pfReachableFinish e.1 e.2).2.1)]))
  | expanded (w : σ) (counted : Context) (e : Context × σ) (h : cursor < c.nodeCount)
      (hmax : ¬spent c.options.maxExpanded c.metrics.expanded = true)
      (hc : { c with metrics := { c.metrics with expanded := c.metrics.expanded+1 } } = counted)
      (he : pfExpand adapter neighbors counted w cursor = e) (hs : e.1.stopped = false) :
      TraversalRound adapter neighbors cursor c world (.inl (cursor+1, e.1, e.2))
        ((cursor+1, counted) :: (pfExpandPoints adapter neighbors counted w cursor).map
          (cursor+1, ·))

theorem pfReachableRound_round (adapter : Adapter σ) (neighbors : σ → StateId → Enumeration σ)
    (cursor : ℕ) (c : Context) (world : σ) :
    TraversalRound adapter neighbors cursor c world
      (pfReachableRound adapter neighbors (cursor, c, world))
      (pfReachableRoundPoints adapter neighbors (cursor, c, world)) := by
  unfold pfReachableRound pfReachableRoundPoints
  by_cases hcur : cursor < c.nodeCount
  swap
  · simp only [if_neg hcur]
    exact .exhausted hcur
  simp only [if_pos hcur]
  by_cases hpoll : (pollCancelled adapter world).1 = true
  · simp only [if_pos hpoll]
    exact .refused _ _ _ _ rfl (Or.inl hpoll)
  simp only [if_neg hpoll]
  by_cases hmax : spent c.options.maxExpanded c.metrics.expanded = true
  · simp only [if_pos hmax]
    exact .refused _ _ _ _ rfl (Or.inr hmax)
  simp only [if_neg hmax, List.cons_append, List.map_cons, List.map_append]
  generalize hc : ({ c with metrics := { c.metrics with
    expanded := c.metrics.expanded+1 } } : Context) = counted
  cases hs :
    (pfExpand adapter neighbors counted (pollCancelled adapter world).2 cursor).1.stopped with
  | true =>
    simp only [if_true, List.map_cons, List.map_nil]
    exact .stopped _ counted _ hcur hmax hc rfl hs
  | false =>
    simp only [Bool.false_eq_true, if_false, List.map_nil, List.append_nil]
    exact .expanded _ counted _ hcur hmax hc rfl hs

/-- A round that leaves the loop of a traversal ends with the context that is left behind. -/
theorem pfReachableRound_getLast (adapter : Adapter σ) (neighbors : σ → StateId → Enumeration σ)
    (a : ℕ × Context × σ) (out : ReachabilityResult × Context × σ)
    (h : pfReachableRound adapter neighbors a = .inr out) :
    ∃ p, (pfReachableRoundPoints adapter neighbors a).getLast? = some p ∧ p.2 = out.2.1 := by
  have hround := pfReachableRound_round adapter neighbors a.1 a.2.1 a.2.2
  rw [show pfReachableRound adapter neighbors (a.1, a.2.1, a.2.2) = .inr out from h] at hround
  change TraversalRound _ _ _ _ _ _ (pfReachableRoundPoints adapter neighbors a) at hround
  generalize pfReachableRoundPoints adapter neighbors a = points at hround ⊢
  cases hround with
  | exhausted => exact ⟨_, rfl, rfl⟩
  | refused => exact ⟨_, rfl, rfl⟩
  | stopped =>
    rw [← List.cons_append]
    exact ⟨_, List.getLast?_concat, rfl⟩

/-- The last moment of a search that comes back is the context that it leaves behind. -/
theorem searchMoments_getLast (fuel : ℕ) (c : Context) (adapter : Option (Adapter σ))
    (start : StateId) (options : Option Options) (world : σ) (r : SearchResult) (c' : Context)
    (world' : σ)
    (h : atrinikPfSearch fuel (some c) adapter start options world = some (r, some c', world')) :
    ∃ p, (atrinikPfSearchMoments fuel c adapter start options world).getLast? = some p ∧
      p.context = c' := by
  have hcall := atrinikPfSearch_call fuel c adapter start options world
  generalize atrinikPfSearchMoments fuel c adapter start options world = moments at hcall ⊢
  generalize atrinikPfSearch fuel (some c) adapter start options world = out at h hcall
  cases hcall with
  | rejected =>
    obtain ⟨_, heq⟩ := Prod.mk.inj (Option.some.inj h)
    exact ⟨_, rfl, Option.some.inj (Prod.mk.inj heq).1⟩
  | unstarted =>
    obtain ⟨_, heq⟩ := Prod.mk.inj (Option.some.inj h)
    exact ⟨_, rfl, Option.some.inj (Prod.mk.inj heq).1⟩
  | ran adapter neighbors goal _ _ started =>
    obtain ⟨⟨r', last, w⟩, hrun, heq⟩ := Option.map_eq_some_iff.mp h
    obtain ⟨rfl, rfl, rfl⟩ : r' = r ∧ last = c' ∧ w = world' := by simpa using heq
    refine ⟨searchMoment last, ?_, rfl⟩
    rw [hrun, Option.toList_some, List.map_singleton, ← List.cons_append, List.map_append,
      ← List.cons_append]
    exact List.getLast?_concat

/-- The last moment of a traversal that comes back is the context that it leaves behind. -/
theorem reachableMoments_getLast (fuel : ℕ) (c : Context) (adapter : Option (Adapter σ))
    (start : StateId) (options : Option Options) (world : σ) (r : ReachabilityResult)
    (c' : Context) (world' : σ)
    (h : atrinikPfReachable fuel (some c) adapter start options world =
      some (r, some c', world')) :
    ∃ p, (atrinikPfReachableMoments fuel c adapter start options world).getLast? = some p ∧
      p.context = c' := by
  have hcall := atrinikPfReachable_call fuel c adapter start options world
  generalize atrinikPfReachableMoments fuel c adapter start options world = moments at hcall ⊢
  generalize atrinikPfReachable fuel (some c) adapter start options world = out at h hcall
  cases hcall with
  | rejected =>
    obtain ⟨_, heq⟩ := Prod.mk.inj (Option.some.inj h)
    exact ⟨_, rfl, Option.some.inj (Prod.mk.inj heq).1⟩
  | unstarted =>
    obtain ⟨_, heq⟩ := Prod.mk.inj (Option.some.inj h)
    exact ⟨_, rfl, Option.some.inj (Prod.mk.inj heq).1⟩
  | ran adapter neighbors =>
    obtain ⟨⟨r', last, w⟩, hrun, heq⟩ := Option.map_eq_some_iff.mp h
    obtain ⟨rfl, rfl, rfl⟩ : r' = r ∧ last = c' ∧ w = world' := by simpa using heq
    obtain ⟨p, hp, hlast⟩ := loop_getLast (pfReachableRound adapter neighbors)
      (pfReachableRoundPoints adapter neighbors) _ (fun p => p.2 = last)
      (fun a => pfReachableRound_getLast adapter neighbors a _) fuel _ hrun
    refine ⟨traversalMoment p, ?_, hlast⟩
    rw [List.getLast?_cons, List.getLast?_map, List.getLast?_cons, hp]
    rfl

/-- A call of `atrinik_pf_search` that comes back with neither of two failures has gone through
its main loop. -/
theorem atrinikPfSearch_cases (fuel : ℕ) (c : Context) (hs : Shape c) (adapter : Adapter σ)
    (start : StateId) (options : Option Options) (world : σ) (r : SearchResult)
    (c' : Option Context) (world' : σ)
    (h : atrinikPfSearch fuel (some c) (some adapter) start options world = some (r, c', world'))
    (hinvalid : r.status ≠ .invalidInput) (hmemory : r.status ≠ .outOfMemory) :
    ∃ neighbors goal started last, adapter.neighbors = some neighbors ∧ adapter.goal = some goal ∧
      Matches (options.getD atrinikPfOptionsInit) started
        (Table.start adapter (options.getD atrinikPfOptionsInit) world start) ∧
      c' = some last ∧ FuelLoop.run (pfSearchRound adapter neighbors goal) fuel started =
        some (some (r, last, world')) := by
  have hcall := atrinikPfSearch_call fuel c (some adapter) start options world
  have hstart := pfSearchStart_agrees adapter c hs (options.getD atrinikPfOptionsInit) world start
  generalize atrinikPfSearchMoments fuel c (some adapter) start options world = moments at hcall
  generalize atrinikPfSearch fuel (some c) (some adapter) start options world = out at h hcall
  cases hcall with
  | rejected => exact absurd (congrArg (·.1.status) (Option.some.inj h)).symm hinvalid
  | unstarted => exact absurd (congrArg (·.1.status) (Option.some.inj h)).symm hmemory
  | ran _ neighbors goal hn hg started hok =>
    rcases hstart with ⟨hfail, _⟩ | ⟨_, hm⟩
    · rw [hok] at hfail
      exact nomatch hfail
    · rw [hok] at hm
      obtain ⟨⟨r', last, w⟩, hrun, heq⟩ := Option.map_eq_some_iff.mp h
      obtain ⟨rfl, rfl, rfl⟩ : r' = r ∧ some last = c' ∧ w = world' := by simpa using heq
      exact ⟨neighbors, goal, started, last, hn, hg, hm, rfl, Option.join_eq_some_iff.mp hrun⟩

/-- From one context to another: the tables are related, unless memory has been refused. -/
def Later (J : Table → Table → Prop) (c c' : Context) : Prop :=
  c'.granted = true → c.granted = true ∧ J c.table c'.table

/-- A relation between tables that covers what happens during an expansion. -/
structure Covers (search : Bool) (adapter : Adapter σ) (options : Options)
    (J : Table → Table → Prop) : Prop where
  refl : ∀ table, J table table
  emit : ∀ i table world t, J table (Table.emit search adapter options i table world t).2.1
  fail : ∀ table, J table (table.stopWith .adapterError .adapterError)

/-- A relation between tables that covers what happens in the main loop of a search. -/
structure CoversSearch (adapter : Adapter σ) (options : Options) (J : Table → Table → Prop) : Prop
    extends Covers true adapter options J where
  close : ∀ table i, i < table.nodes.length → J table (table.close i)
  total : ∀ (table : Table) n,
    J table { table with metrics := { table.metrics with totalCost := n } }

/-- A relation between tables with the number of nodes taken that covers the loop of a traversal. -/
structure CoversTraversal (adapter : Adapter σ) (options : Options)
    (J : ℕ × Table → ℕ × Table → Prop) : Prop where
  expansion : ∀ k, Covers false adapter options (fun t t' => J (k, t) (k, t'))
  stop : ∀ k (t : Table) status termination, J (k, t) (k, t.stopWith status termination)
  take : ∀ k (t : Table), J (k, t) (k+1, { t with metrics := { t.metrics with
    expanded := t.metrics.expanded+1 } })

variable {J : Table → Table → Prop} {c : Context}

theorem OutOfMemory.not_granted (h : OutOfMemory c) : c.granted = false := by
  unfold Context.granted
  rw [h.stopped, h.status, h.termination]
  rfl

theorem granted_of_not_stopped (h : c.stopped = false) : c.granted = true := by
  unfold Context.granted
  rw [h]
  rfl

theorem outOfMemory_of_not_granted (hs : Shape c) (h : c.granted = false) : OutOfMemory c := by
  have hflags : (c.stopped = true ∧ c.stopStatus = .outOfMemory) ∧
      c.stopTermination = .outOfMemory := by simpa [Context.granted] using h
  exact ⟨hs, hflags.1.1, hflags.1.2, hflags.2⟩

/-- One emission. A context without memory stays as it is. -/
theorem pfEmitTransition_later (hJ : Covers search adapter options J) (i : ℕ)
    (h : OutOfMemory c ∨ Running search options (some i) c) (world : σ)
    (t : Option Transition) :
    Later J c (pfEmitTransition adapter c world t).2.1 ∧
      (OutOfMemory (pfEmitTransition adapter c world t).2.1 ∨
        Running search options (some i) (pfEmitTransition adapter c world t).2.1) := by
  have hvoid (c' : Context) (hoom : OutOfMemory c') : Later J c c' := fun hg =>
    absurd hg (by rw [hoom.not_granted]; decide)
  have hshape : Shape c := h.elim (·.shape) (·.indexed.shape)
  cases hg : c.granted with
  | false =>
    -- the operation has stopped, and the emission finds it stopped
    have hoom := outOfMemory_of_not_granted hshape hg
    have hoom' := hoom.emitTransition adapter world t
    exact ⟨hvoid _ hoom', Or.inl hoom'⟩
  | true =>
    have hrun := h.resolve_left fun hoom => absurd hg (by rw [hoom.not_granted]; decide)
    rcases pfEmitTransition_agrees search adapter c options i hrun t world with hoom | hag
    · exact ⟨hvoid _ hoom, Or.inl hoom⟩
    · refine ⟨fun _ => ⟨hg, ?_⟩, Or.inr hag.running⟩
      rw [hag.table]
      exact hJ.emit i c.table world t

theorem Enumeration.passes (hJ : Covers search adapter options J) (i : ℕ) (e : Enumeration σ)
    (c : Context) (h : OutOfMemory c ∨ Running search options (some i) c) :
    Passes (Later J) c (e.points (pfEmitTransition adapter) c)
      (e.run (pfEmitTransition adapter) c).2.1 := by
  induction e generalizing c with
  | finish enumerated world => exact .nil c
  | emit transition world resume ih =>
    obtain ⟨hlater, hnext⟩ := pfEmitTransition_later hJ i h world transition
    exact .cons hlater (ih _ _ _ hnext)

/-- A whole expansion. -/
theorem pfExpand_passes (hJ : Covers search adapter options J)
    (neighbors : σ → StateId → Enumeration σ) (h : Running search options none c) (world : σ)
    (i : ℕ) (hi : i < c.nodeCount) :
    Passes (Later J) c (pfExpandPoints adapter neighbors c world i)
      (pfExpand adapter neighbors c world i).1 := by
  have hactive := h.activate (some i) (fun j hj => Option.some.inj hj ▸ hi)
  have hrun := Enumeration.passes hJ i (neighbors world (c.node i).state) _ (Or.inr hactive)
  -- the adapter has come back: its answer may be an error, and no node is active any more
  refine .cons (fun hg => ⟨hg, hJ.refl _⟩) (hrun.append (.single ?_))
  unfold pfExpand
  dsimp only
  generalize (neighbors world (c.node i).state).run (pfEmitTransition adapter)
    { c with activeNode := some i } = r
  split_ifs with hfail
  · have hst : r.2.1.stopped = false := by
      have hn := (Bool.and_eq_true_iff.mp hfail).2
      simpa using hn
    refine fun _ => ⟨granted_of_not_stopped hst, ?_⟩
    exact hJ.fail r.2.1.table
  · exact fun hg => ⟨hg, hJ.refl _⟩

/-- How the main loop of a search is left: the search is finished from its last context, or
memory has been refused. -/
inductive SearchLeft (options : Options) (last : Context) : Finished σ SearchResult → Prop where
  | finished (h : Finishable options last) (hg : last.granted = true) (world : σ)
      (status : Status) (termination : Termination)
      (node : Option ℕ) (hn : ∀ i, node = some i → i < last.nodeCount)
      (hs : status = .partialPath → last.table.stop = some (status, termination)) :
      SearchLeft options last (finishSearch last world status termination node)
  | refused (h : OutOfMemory last) (world : σ) : SearchLeft options last
      (finishSearch last world last.stopStatus last.stopTermination none)

/-- The node that is taken from the frontier stays in the table. -/
theorem Takes.later (hJ : Covers true adapter options J) {i : ℕ} {p : Context} {world w : σ}
    (ht : Takes adapter c world i p w) (h : Running true options none c)
    (hg : c.granted = true) :
    Later J c p ∧ Finishable options p ∧ p.granted = true ∧ i < p.nodeCount := by
  obtain ⟨hroot, hlt, _, _, htab, hframe⟩ := pfHeapPop_table h ht.nonempty
  obtain ⟨hcount, hfin⟩ := h.popped ht.nonempty
  rw [ht.pop] at hroot htab hframe hcount hfin
  dsimp only at hroot htab hframe hcount hfin
  have hgp : p.granted = true := by
    have hsame : p.granted = c.granted := by rw [hframe.rest]; rfl
    rwa [hsame]
  refine ⟨fun _ => ⟨hg, ?_⟩, hfin, hgp, ?_⟩
  · rw [htab]
    exact hJ.refl _
  · rw [hcount, hroot]
    exact hlt

/-- The node that is taken is closed and expanded. -/
theorem Takes.expands (hJ : CoversSearch adapter options J)
    (neighbors : σ → StateId → Enumeration σ) {i : ℕ} {p : Context} {world w : σ}
    (ht : Takes adapter c world i p w) (h : Running true options none c) (hg : c.granted = true)
    (w' : σ) {e : Context × σ} (he : pfExpand adapter neighbors (p.closeNode i) w' i = e) :
    Passes (Later J) c (p :: p.closeNode i ::
        pfExpandPoints adapter neighbors (p.closeNode i) w' i) e.1 ∧
      (OutOfMemory e.1 ∨ Running true options none e.1) := by
  obtain ⟨hlater, _, _, hlt⟩ := ht.later hJ.toCovers h hg
  obtain ⟨hroot, hlt', hi, hf, htab, hframe⟩ := pfHeapPop_table h ht.nonempty
  rw [ht.pop] at hroot hi hf htab hframe
  dsimp only at hroot hi hf htab hframe
  rw [← hroot] at hlt' hf
  obtain ⟨hclosed, htabc⟩ := closeNode_running i h hi hf hframe hlt' htab
  have hlast : Later J p (p.closeNode i) := by
    refine fun hg => ⟨hg, ?_⟩
    rw [htabc, ← htab]
    exact hJ.close p.table i (hi.length_eq ▸ hlt)
  have hag := pfExpand_agrees true adapter neighbors (p.closeNode i) options hclosed w' i hlt
  rw [he] at hag
  have hpass := pfExpand_passes hJ.toCovers neighbors hclosed w' i hlt
  rw [he] at hpass
  exact ⟨.cons hlater (.cons hlast hpass), hag.imp_right (·.1)⟩

/-- One round of a search. -/
theorem pfSearchRound_passes (hJ : CoversSearch adapter options J)
    (neighbors : σ → StateId → Enumeration σ) (goal : σ → StateId → Bool × σ) (a : Context × σ)
    (h : Running true options none a.1 ∧ a.1.stopped = false) :
    ∃ last, Passes (Later J) a.1 (pfSearchRoundPoints adapter neighbors goal a) last ∧
      (∀ next, pfSearchRound adapter neighbors goal a = .inl next →
        (Running true options none next.1 ∧ next.1.stopped = false) ∧ last = next.1) ∧
      ∀ out, pfSearchRound adapter neighbors goal a = .inr out → SearchLeft options last out := by
  obtain ⟨c, world⟩ := a
  obtain ⟨hrun, hstop⟩ := h
  dsimp only at hrun hstop
  have hround := pfSearchRound_round adapter neighbors goal c world
  generalize pfSearchRoundPoints adapter neighbors goal (c, world) = points at hround ⊢
  generalize pfSearchRound adapter neighbors goal (c, world) = result at hround ⊢
  have hg := granted_of_not_stopped hstop
  -- a round that leaves the loop from the context `last`
  have hleave (last : Context) (points : List Context) (out : Finished σ SearchResult)
      (hpass : Passes (Later J) c points last) (hleft : SearchLeft options last out) :
      ∃ last', Passes (Later J) c points last' ∧
        (∀ next, (.inr out : (Context × σ) ⊕ Finished σ SearchResult) = .inl next →
          (Running true options none next.1 ∧ next.1.stopped = false) ∧ last' = next.1) ∧
        ∀ out', (.inr out : (Context × σ) ⊕ Finished σ SearchResult) = .inr out' →
          SearchLeft options last' out' :=
    ⟨last, hpass, fun _ he => (by cases he), fun _ he => Sum.inr.inj he ▸ hleft⟩
  cases hround with
  | exhausted =>
    exact hleave c [] _ (.nil c) (.finished hrun.finishable hg world _ _ none
      (fun _ hi => by cases hi) (fun hs => by cases hs))
  | cancelled w =>
    exact hleave c [] _ (.nil c) (.finished hrun.finishable hg w _ _ none
      (fun _ hi => by cases hi) (fun hs => by cases hs))
  | found i p p' w w' ht _ hp =>
    obtain ⟨hlater, hfin, hgp, hlt⟩ := ht.later hJ.toCovers hrun hg
    have hfin' : Finishable options p' := by
      rw [← hp]
      exact ⟨hfin.options_eq, hfin.indexed.control rfl, hfin.parent_lt, hfin.best_lt,
        hfin.generated⟩
    have hgp' : p'.granted = true := by
      rw [← hp]
      exact hgp
    have htotal : Later J p p' := by
      rw [← hp]
      exact fun hg => ⟨hg, hJ.total p.table _⟩
    have hlt' : i < p'.nodeCount := by
      rw [← hp]
      exact hlt
    refine hleave p' [p, p'] _ (.cons hlater (.single htotal))
      (.finished hfin' hgp' w' .found .goal (some i) ?_ (fun hs => by cases hs))
    intro j hj
    exact Option.some.inj hj ▸ hlt'
  | limited i p w w' ht =>
    obtain ⟨hlater, hfin, hgp, _⟩ := ht.later hJ.toCovers hrun hg
    exact hleave p [p] _ (.single hlater) (.finished hfin hgp w' _ _ none
      (fun _ hi => by cases hi) (fun hs => by cases hs))
  | stopped i p w w' e ht _ _ he hs =>
    -- an emission has stopped the search, for want of memory or for another reason
    obtain ⟨hpass, hend⟩ := ht.expands hJ neighbors hrun hg w' he
    refine hleave e.1 _ _ hpass ?_
    rcases hend with hoom | hrun'
    · exact .refused hoom e.2
    · cases hge : e.1.granted with
      | false => exact .refused (outOfMemory_of_not_granted hrun'.indexed.shape hge) e.2
      | true =>
        refine .finished hrun'.finishable hge e.2 _ _ none (fun j hj => by cases hj) fun _ => ?_
        rw [table_stop, if_pos hs]
  | expanded i p w w' e ht _ _ he hs =>
    obtain ⟨hpass, hend⟩ := ht.expands hJ neighbors hrun hg w' he
    refine ⟨e.1, hpass, ?_, fun _ he => (by cases he)⟩
    rintro _ ⟨⟩
    rcases hend with hoom | hrun'
    · exact absurd hoom.stopped (by rw [hs]; decide)
    · exact ⟨⟨hrun', hs⟩, rfl⟩

/-- The main loop of a search. -/
theorem search_passes (hJ : CoversSearch adapter options J)
    (neighbors : σ → StateId → Enumeration σ) (goal : σ → StateId → Bool × σ) (fuel : ℕ)
    (a : Context × σ) (h : Running true options none a.1 ∧ a.1.stopped = false) :
    ∃ last, Passes (Later J) a.1 (loop (pfSearchRound adapter neighbors goal)
        (pfSearchRoundPoints adapter neighbors goal) fuel a) last ∧
      ∀ out, FuelLoop.run (pfSearchRound adapter neighbors goal) fuel a = some out →
        SearchLeft options last out :=
  loop_passes _ _ Prod.fst (fun a => Running true options none a.1 ∧ a.1.stopped = false)
    (SearchLeft options)
    (fun a ha => pfSearchRound_passes hJ neighbors goal a ha) fuel a h

theorem PathWritten.table_eq {c' : Context} (h : PathWritten c c') :
    c'.table = c.table ∧ c'.granted = c.granted := by
  obtain ⟨m, path, cap, _, rfl⟩ := h
  exact ⟨rfl, rfl⟩

/-- The context that a search leaves behind is its last one, apart from the path. -/
theorem SearchLeft.later {last : Context} {r : SearchResult} {c' : Context} {world : σ}
    {out : Finished σ SearchResult} (h : SearchLeft options last out)
    (hout : out = some (r, c', world)) (hJ : ∀ table, J table table) : Later J last c' := by
  cases h with
  | finished hfin hg w status termination node hn hs =>
    obtain ⟨hwritten, _⟩ := finishSearch_leaves hfin status termination node hn w r c' world hout
    obtain ⟨htable, hgranted⟩ := hwritten.table_eq
    intro hg'
    rw [htable]
    exact ⟨hgranted ▸ hg', hJ _⟩
  | refused hoom w =>
    rw [hoom.status, hoom.termination, finishSearch_outOfMemory] at hout
    obtain ⟨_, heq⟩ := Prod.mk.inj (Option.some.inj hout)
    obtain ⟨rfl, _⟩ := Prod.mk.inj heq
    exact fun hg => ⟨hg, hJ _⟩

/-- The main loop of a search with the context that it leaves behind. -/
theorem searchRun_passes (hJ : CoversSearch adapter options J)
    (neighbors : σ → StateId → Enumeration σ) (goal : σ → StateId → Bool × σ) (fuel : ℕ)
    (a : Context × σ) (h : Running true options none a.1 ∧ a.1.stopped = false) :
    ∃ last, Passes (Later J) a.1 (loop (pfSearchRound adapter neighbors goal)
      (pfSearchRoundPoints adapter neighbors goal) fuel a ++
        (FuelLoop.run (pfSearchRound adapter neighbors goal) fuel a).join.toList.map (·.2.1))
      last := by
  obtain ⟨last, hpass, hleft⟩ := search_passes hJ neighbors goal fuel a h
  cases hrun : (FuelLoop.run (pfSearchRound adapter neighbors goal) fuel a).join with
  | none => exact ⟨last, by simpa using hpass⟩
  | some out =>
    have hlater := (hleft _ (Option.join_eq_some_iff.mp hrun)).later rfl hJ.refl
    exact ⟨out.2.1, hpass.append (.single hlater)⟩

/-- The end of a traversal: only the array of states changes, unless memory for it is refused. -/
theorem pfReachableFinish_later (hs : Shape c) (hJ : J c.table c.table) (world : σ) :
    Later J c (pfReachableFinish c world).2.1 := by
  unfold pfReachableFinish
  rcases pfReserveReachable_spec c hs with ⟨m, he⟩ | ⟨m, reachable, cap, he, _, _⟩
  · rw [he]
    exact fun hg => absurd hg (by simp [pfStop, Context.granted])
  · rw [he]
    exact fun hg => ⟨hg, hJ⟩

/-- From one point of a traversal to another. -/
def LaterAt (J : ℕ × Table → ℕ × Table → Prop) (p q : ℕ × Context) : Prop :=
  q.2.granted = true → p.2.granted = true ∧ J (p.1, p.2.table) (q.1, q.2.table)

/-- One round of a traversal. -/
theorem pfReachableRound_passes {J : ℕ × Table → ℕ × Table → Prop}
    (hJ : CoversTraversal adapter options J)
    (neighbors : σ → StateId → Enumeration σ) (a : ℕ × Context × σ)
    (h : Running false options none a.2.1 ∧ a.2.1.stopped = false) :
    ∃ last, Passes (LaterAt J) (a.1, a.2.1) (pfReachableRoundPoints adapter neighbors a) last ∧
      ∀ next, pfReachableRound adapter neighbors a = .inl next →
        (Running false options none next.2.1 ∧ next.2.1.stopped = false) ∧
          last = (next.1, next.2.1) := by
  obtain ⟨cursor, c, world⟩ := a
  obtain ⟨hrun, hst⟩ := h
  dsimp only at hrun hst
  have hround := pfReachableRound_round adapter neighbors cursor c world
  generalize pfReachableRoundPoints adapter neighbors (cursor, c, world) = points at hround ⊢
  generalize pfReachableRound adapter neighbors (cursor, c, world) = result at hround ⊢
  have hg := granted_of_not_stopped hst
  have hfinish (k : ℕ) (last : Context) (hs : Shape last) (w : σ) :
      LaterAt J (k, last) (k, (pfReachableFinish last w).2.1) :=
    pfReachableFinish_later (J := fun t t' => J (k, t) (k, t')) hs ((hJ.expansion k).refl _) w
  -- the next node of the queue is counted and expanded
  have hexpands (w : σ) (counted : Context) (e : Context × σ) (hcur : cursor < c.nodeCount)
      (hc : { c with metrics := { c.metrics with expanded := c.metrics.expanded+1 } } = counted)
      (he : pfExpand adapter neighbors counted w cursor = e) :
      Passes (LaterAt J) (cursor, c) ((cursor+1, counted) ::
          (pfExpandPoints adapter neighbors counted w cursor).map (cursor+1, ·)) (cursor+1, e.1) ∧
        (OutOfMemory e.1 ∨ Running false options none e.1) := by
    have hcounted : Running false options none counted := by
      rw [← hc]
      exact hrun.control rfl rfl rfl rfl hrun.best_lt rfl
    have hcur' : cursor < counted.nodeCount := by
      rw [← hc]
      exact hcur
    have hpass := pfExpand_passes (hJ.expansion (cursor+1)) neighbors hcounted w cursor hcur'
    have hag := pfExpand_agrees false adapter neighbors counted options hcounted w cursor hcur'
    rw [he] at hpass hag
    refine ⟨.cons ?_ (hpass.map _ fun _ _ h => h), hag.imp_right (·.1)⟩
    rw [← hc]
    exact fun _ => ⟨hg, hJ.take cursor c.table⟩
  cases hround with
  | exhausted =>
    exact ⟨_, .single (hfinish cursor c hrun.indexed.shape world), fun _ he => (by cases he)⟩
  | refused w status termination stopped hs =>
    have hshape : Shape stopped := hs ▸ hrun.indexed.shape.control rfl
    refine ⟨_, .cons ?_ (.single (hfinish cursor stopped hshape w)), fun _ he => (by cases he)⟩
    rw [← hs]
    exact fun _ => ⟨hg, hJ.stop cursor c.table status termination⟩
  | stopped w counted e hcur _ hc he =>
    obtain ⟨hpass, hend⟩ := hexpands w counted e hcur hc he
    have hshape : Shape e.1 := hend.elim (·.shape) (·.indexed.shape)
    exact ⟨_, hpass.append (.single (hfinish _ e.1 hshape e.2)), fun _ he => (by cases he)⟩
  | expanded w counted e hcur _ hc he hs =>
    obtain ⟨hpass, hend⟩ := hexpands w counted e hcur hc he
    refine ⟨_, hpass, ?_⟩
    rintro _ ⟨⟩
    rcases hend with hoom | hrun'
    · exact absurd hoom.stopped (by rw [hs]; decide)
    · exact ⟨⟨hrun', hs⟩, rfl⟩

/-- The loop of a traversal. -/
theorem reachable_passes {J : ℕ × Table → ℕ × Table → Prop}
    (hJ : CoversTraversal adapter options J)
    (neighbors : σ → StateId → Enumeration σ) (fuel : ℕ) (a : ℕ × Context × σ)
    (h : Running false options none a.2.1 ∧ a.2.1.stopped = false) :
    ∃ last, Passes (LaterAt J) (a.1, a.2.1) (loop (pfReachableRound adapter neighbors)
      (pfReachableRoundPoints adapter neighbors) fuel a) last := by
  obtain ⟨last, hpass, _⟩ := loop_passes (pfReachableRound adapter neighbors)
    (pfReachableRoundPoints adapter neighbors) (fun a => (a.1, a.2.1))
    (fun a => Running false options none a.2.1 ∧ a.2.1.stopped = false) (fun _ _ => True)
    (fun a ha => by
      obtain ⟨last, hpass, hnext⟩ := pfReachableRound_passes hJ neighbors a ha
      exact ⟨last, hpass, hnext, fun _ _ => trivial⟩) fuel a h
  exact ⟨last, hpass⟩

end LibAtrinik.Pathfinding

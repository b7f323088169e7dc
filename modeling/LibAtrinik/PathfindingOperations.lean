import LibAtrinik.PathfindingRefinement

namespace LibAtrinik.Pathfinding

variable {σ : Type}

theorem pfReset_indexed (c : Context) (hs : Shape c) (options : Options) :
    Indexed (pfReset c options) := by
  have h := hs.reset options
  exact ⟨h.shape, h.count_le, h.half, h.distinct, fun i hlt => absurd hlt (Nat.not_lt_zero i),
    h.holds⟩

theorem pfReset_frontier (c : Context) (options : Options) : Frontier (pfReset c options) none :=
  ⟨⟨Nat.zero_le _, fun p h => absurd h (Nat.not_lt_zero p), fun p h => absurd h (Nat.not_lt_zero p),
    fun p h => absurd h (Nat.not_lt_zero p), fun p h => absurd h (Nat.not_lt_zero p),
    fun i h => absurd h (Nat.not_lt_zero i)⟩, fun p _ h => absurd h (Nat.not_lt_zero p)⟩

/-- `pf_add_node` on a context that `pf_reset` has emptied. -/
theorem pfAddNode_start (c : Context) (hi : Indexed c) (h0 : c.nodeCount = 0) (node : PfNode)
    (hseq : node.sequence = 0) :
    (∃ memory hash hashCapacity, pfAddNode c node =
        (none, { c with memory := memory, hash := hash, hashCapacity := hashCapacity }) ∧
      Shape { c with memory := memory, hash := hash, hashCapacity := hashCapacity }) ∨
    ∃ memory hash hashCapacity nodes nodeCapacity, pfAddNode c node = (some 0,
        { c with memory := memory, hash := hash, hashCapacity := hashCapacity, nodes := nodes,
                 nodeCapacity := nodeCapacity, nodeCount := 1 }) ∧
      Indexed { c with memory := memory, hash := hash, hashCapacity := hashCapacity,
                       nodes := nodes, nodeCapacity := nodeCapacity, nodeCount := 1 } ∧
      nodes.getD 0 default = node := by
  rcases pfAddNode_spec c hi node (fun i h => absurd h (by omega)) (by rw [hseq, h0]) with
    hfail | ⟨m, hash, cap, nodes, ncap, he, hi', hnew, _⟩
  · exact Or.inl hfail
  · rw [h0] at he hi' hnew
    exact Or.inr ⟨m, hash, cap, nodes, ncap, he, hi', hnew⟩

/-- A context with one node stands for a list of one node. -/
theorem nodeList_singleton (c : Context) (hi : Indexed c) (h1 : c.nodeCount = 1) (node : PfNode)
    (hnode : (c.node 0).erase = node) : c.nodeList = [node] := by
  apply nodeList_eq c _ hi.count_le_length
  · rw [h1]
    rfl
  · intro i h
    obtain rfl : i = 0 := by omega
    exact hnode.symm

/-- The start node, stored, pushed and considered as the end of a partial path. -/
theorem pfSearchStart_agrees (adapter : Adapter σ) (c : Context) (hs : Shape c)
    (options : Options) (world : σ) (start : StateId) :
    ((pfSearchStart adapter (pfReset c options) world start).1 = false ∧
      Shape (pfSearchStart adapter (pfReset c options) world start).2.1) ∨
    (pfSearchStart adapter (pfReset c options) world start).1 = true ∧
      Matches options (pfSearchStart adapter (pfReset c options) world start).2
        (Table.start adapter options world start) := by
  have hi := pfReset_indexed c hs options
  have hf := pfReset_frontier c options
  have ho : (pfReset c options).options = options := rfl
  unfold pfSearchStart Table.start
  dsimp only
  rw [ho]
  generalize scoreState adapter options.algorithm world start = score
  let node : PfNode := {
    state := start, heuristic := score.1, priority := pfPriority options.algorithm 0 score.1 }
  rcases pfAddNode_start (pfReset c options) hi rfl node rfl with
    ⟨m, hash, cap, he, hs'⟩ | ⟨m, hash, cap, nodes, ncap, he, hi1, hnew⟩
  · rw [he]
    exact Or.inl ⟨rfl, hs'⟩
  · rw [he]
    dsimp only
    let c1 : Context := { pfReset c options with
      memory := m, hash := hash, hashCapacity := cap, nodes := nodes, nodeCapacity := ncap,
      nodeCount := 1 }
    have hnode1 : c1.node 0 = node := hnew
    have hf1 : Frontier c1 (some 0) :=
      hf.append rfl rfl rfl rfl (fun i h => absurd h (Nat.not_lt_zero i))
    have hopen : (c1.node 0).closed = false := by rw [hnode1]
    rcases pfHeapPush_spec c1 hi1 0 Nat.zero_lt_one hopen hf1 with
      ⟨m', hpush⟩ | ⟨m', heap, hcap, nodes', hpush, hi2, hf2, herase⟩
    · rw [hpush]
      exact Or.inl ⟨rfl, hi1.shape.control rfl⟩
    · rw [hpush]
      right
      let c2 : Context := { c1 with
        memory := m', heap := heap, heapCapacity := hcap, heapCount := 1, nodes := nodes'
        metrics := { peakAfter c1.metrics 1 with generated := 1 } }
      have hi3 : Indexed c2 := hi2.control rfl
      have hnode2 : (c2.node 0).erase = node := by
        have h1 : (c2.node 0).erase = (c1.node 0).erase := herase 0
        rw [h1, hnode1]
        rfl
      have htab : c2.table = {
          nodes := [node], metrics := { generated := 1, peakFrontier := 1 } } :=
        Table.ext (nodeList_singleton c2 hi3 rfl node hnode2) rfl rfl rfl rfl
      obtain ⟨best, rank, hcons, hblt, htabc, hworld⟩ := pfConsiderPartial_spec adapter c2 hi3
        (fun i hb => absurd hb (by simp [c2, c1, pfReset])) score.2 0 Nat.zero_lt_one
      have hfront : Frontier c2 none := hf2.control rfl
      have hpar : ParentsBelow c2 1 := by
        intro i hlt p hp
        obtain rfl : i = 0 := by omega
        have hpar := congrArg PfNode.parent hnode2
        rw [show (c2.node 0).erase.parent = (c2.node 0).parent from rfl, hp] at hpar
        cases hpar
      have hprio (i : ℕ) (hlt : i < 1) : Prioritized options.algorithm (c2.node i) := by
        obtain rfl : i = 0 := by omega
        have hp : Prioritized options.algorithm (c2.node 0).erase := by
          rw [hnode2]
          rfl
        exact hp
      have hrun : Running true options none c2 :=
        ⟨hi3, fun _ => hfront, rfl, rfl, rfl, fun i h => absurd h (by simp),
          fun i h => absurd h (by simp [c2, c1, pfReset]), hpar, fun _ => hprio, rfl⟩
      refine ⟨rfl, ?_⟩
      show Matches options ((pfConsiderPartial adapter c2 score.2 0).1,
        (pfConsiderPartial adapter c2 score.2 0).2) _
      have ho2 : c2.options = options := rfl
      rw [ho2, htab] at htabc hworld
      rw [hcons]
      refine ⟨hrun.control rfl rfl rfl rfl hblt rfl, rfl, ?_, hworld.symm⟩
      rw [htabc, ← htab]
      rfl

theorem Refused.ends {ρ : Type} {status : ρ → Status} {metrics : ρ → Metrics} {out : Finished σ ρ}
    (h : Refused status out) (other : Option (ρ × σ)) :
    Ends status metrics out other := by
  obtain ⟨result, c, world, rfl, hs, hr⟩ := h
  exact Ends.refused result c world other hs hr

/-- What the simulation rule says about two loops is how their results are related. -/
theorem Ends.of_simulation {ρ : Type} {status : ρ → Status} {metrics : ρ → Metrics}
    {x : Finished σ ρ} {y : Option (ρ × σ)}
    (h : (∃ b, x = some b ∧ Refused status (some b)) ∨
      Option.Rel (fun r r' => Ends status metrics (some r) (some r')) x y) : Ends status metrics x y := by
  rcases h with ⟨b, rfl, hr⟩ | h
  · exact hr.ends y
  · cases h with
    | none => exact Ends.never
    | some h => exact h

/-- `atrinik_pf_search` on a context of any shape against the search on tables. -/
theorem atrinikPfSearch_ends (fuel : ℕ) (c : Context) (hs : Shape c)
    (adapter : Option (Adapter σ)) (start : StateId) (options : Option Options) (world : σ) :
    ∃ out, atrinikPfSearch fuel (some c) adapter start options world =
        out.map (fun r => (r.1, some r.2.1, r.2.2)) ∧
      Ends SearchResult.status SearchResult.metrics out
        (Table.search fuel adapter start (options.getD atrinikPfOptionsInit) world) := by
  unfold atrinikPfSearch Table.search
  dsimp only
  generalize options.getD atrinikPfOptionsInit = options
  let invalid : SearchResult := { status := .invalidInput, termination := .invalidInput }
  have hinvalid : ∃ out : Finished σ SearchResult,
      some (invalid, some (pfReset c options), world) =
        out.map (fun r => (r.1, some r.2.1, r.2.2)) ∧
      Ends SearchResult.status SearchResult.metrics out (some (invalid, world)) :=
    ⟨some (invalid, pfReset c options, world), rfl,
      Ends.same _ _ _ (pfReset_indexed c hs options).shape (Nat.zero_le _)⟩
  cases adapter with
  | none => exact hinvalid
  | some adapter =>
    dsimp only
    cases hn : adapter.neighbors with
    | none => exact hinvalid
    | some neighbors =>
      cases hg : adapter.goal with
      | none => exact hinvalid
      | some goal =>
        dsimp only
        by_cases hv : pfValidInput adapter options = true
        · simp only [if_pos hv]
          refine ⟨_, rfl, ?_⟩
          rcases pfSearchStart_agrees adapter c hs options world start with ⟨hfail, hs'⟩ | ⟨hok, hm⟩
          · rw [hfail]
            exact (finishSearch_refused hs' _).ends _
          · rw [hok]
            rcases FuelLoop.run_simulation (pfSearchRound adapter neighbors goal)
              (Table.searchRound adapter options neighbors goal) (Matches options)
              (Ends SearchResult.status SearchResult.metrics) (Refused SearchResult.status)
              (fun a b hab => pfSearchRound_simulates adapter options neighbors goal a b hab)
              fuel _ _ hm with ⟨out, hout, hr⟩ | hrel
            · rw [hout]
              exact hr.ends _
            · simp only [if_true]
              revert hrel
              generalize FuelLoop.run (pfSearchRound adapter neighbors goal) fuel _ = x
              generalize FuelLoop.run (Table.searchRound adapter options neighbors goal) fuel _ = y
              intro hrel
              cases hrel with
              | none => exact Ends.never
              | some h => exact h
        · simp only [if_neg hv]
          exact hinvalid

/-- The copying loop at the end of `atrinik_pf_reachable`. -/
theorem foldl_set_range {α : Type} (f : ℕ → α) (n : ℕ) (xs : List α) (h : n ≤ xs.length) :
    ((List.range n).foldl (fun ys i => ys.set i (f i)) xs).length = xs.length ∧
      ((List.range n).foldl (fun ys i => ys.set i (f i)) xs).take n = (List.range n).map f := by
  induction n with
  | zero => exact ⟨rfl, rfl⟩
  | succ n ih =>
    obtain ⟨hl, ht⟩ := ih (by omega)
    rw [List.range_succ, List.foldl_append, List.foldl_cons, List.foldl_nil, List.map_append,
      List.map_cons, List.map_nil]
    refine ⟨by rw [List.length_set, hl], ?_⟩
    rw [List.take_add_one, List.take_set_of_le (by omega), ht,
      List.getElem?_set_self (by omega), Option.toList_some]

theorem states_nodeList (c : Context) (hi : Indexed c) :
    c.nodeList.map (·.state) = (List.range c.nodeCount).map (fun i => (c.node i).state) := by
  apply List.ext_getElem
  · simp [hi.length_eq]
  · intro i h h'
    have hlt : i < c.nodeCount := by simpa using h'
    have hat : (nodeAt c.nodeList i).state = (c.node i).state := by
      rw [hi.nodeAt_eq i hlt]
      rfl
    have hlen : i < c.nodeList.length := by rwa [hi.length_eq]
    simpa [nodeAt, hlen] using hat

/-- Room for the states, unless memory is refused. -/
theorem pfReserveReachable_spec (c : Context) (hs : Shape c) :
    (∃ memory, pfReserveReachable c = (false, { c with memory := memory })) ∨
    ∃ memory reachable reachableCapacity, pfReserveReachable c = (true, { c with
        memory := memory, reachable := reachable, reachableCapacity := reachableCapacity }) ∧
      reachable.length = reachableCapacity ∧ c.nodeCount ≤ reachableCapacity := by
  have hl := hs.reachable
  unfold pfReserveReachable
  split_ifs with hroom
  · exact Or.inr ⟨c.memory, c.reachable, c.reachableCapacity, rfl, hl, hroom⟩
  · dsimp only
    generalize hg : pfGrowArray c.memory sizeofStateId c.reachableCapacity c.nodeCount = r
    cases hr : r.1 with
    | none => exact Or.inl ⟨r.2, rfl⟩
    | some capacity =>
      have hge := (pfGrowArray_spec _ _ _ _ capacity (by rw [hg, hr])).1
      exact Or.inr ⟨r.2, reallocList c.reachable capacity, capacity, rfl,
        reallocList_length _ _ (by omega), hge⟩

theorem pfCopyReachable_shape (c : Context) (hs : Shape c)
    (hroom : c.nodeCount ≤ c.reachableCapacity) : Shape (pfCopyReachable c) := by
  have hl := hs.reachable
  obtain ⟨hlen, _⟩ := foldl_set_range (fun i => (c.node i).state) c.nodeCount c.reachable
    (by omega)
  exact ⟨hs.1, hs.2, hs.3, hs.4, hs.5, hlen.trans hl, hs.7⟩

/-- The end of `atrinik_pf_reachable`, for a context that need not be indexed. -/
theorem pfReachableFinish_cases (c : Context) (hs : Shape c) (world : σ) :
    Refused ReachabilityResult.status (some (pfReachableFinish c world)) ∨
    ∃ c', pfReachableFinish c world = (pfReachableResult c
        ((List.range c.nodeCount).map fun i => (c.node i).state), c', world) ∧ Shape c' := by
  unfold pfReachableFinish
  rcases pfReserveReachable_spec c hs with ⟨m, he⟩ | ⟨m, reachable, cap, he, hl, hge⟩
  · rw [he]
    exact Or.inl ⟨_, _, _, rfl, hs.control rfl, rfl⟩
  · rw [he]
    simp only [if_true]
    let c1 : Context := { c with memory := m, reachable := reachable, reachableCapacity := cap }
    have hs1 : Shape c1 := ⟨hs.1, hs.2, hs.3, hs.4, hs.5, hl, hs.7⟩
    obtain ⟨_, htake⟩ := foldl_set_range (fun i => (c.node i).state) c.nodeCount reachable
      (by omega)
    have hstates : (pfCopyReachable c1).reachable.take (pfCopyReachable c1).nodeCount =
        (List.range c.nodeCount).map fun i => (c.node i).state := htake
    refine Or.inr ⟨pfCopyReachable c1, ?_, pfCopyReachable_shape c1 hs1 hge⟩
    rw [hstates]
    rfl

theorem pfReachableFinish_ends (c : Context) (hi : Indexed c)
    (hg : c.metrics.generated*sizeofPfNode ≤ sizeMax) (world : σ) :
    Ends ReachabilityResult.status ReachabilityResult.metrics (some (pfReachableFinish c world))
      (some (c.table.finishReachable, world)) := by
  rcases pfReachableFinish_cases c hi.shape world with hr | ⟨c', he, hs⟩
  · exact hr.ends _
  · have hresult : pfReachableResult c ((List.range c.nodeCount).map fun i => (c.node i).state) =
        c.table.finishReachable := by
      rw [← states_nodeList c hi]
      unfold pfReachableResult Table.finishReachable
      rw [table_stop]
      cases c.stopped <;> rfl
    rw [he, hresult]
    exact Ends.same _ _ _ hs hg

/-- A context and a table between two rounds of a traversal, with the same cursor. -/
def MatchesAt (options : Options) (a : ℕ × Context × σ) (b : ℕ × Table × σ) : Prop :=
  a.1 = b.1 ∧ Running false options none a.2.1 ∧ a.2.1.stopped = false ∧
    a.2.1.table = b.2.1 ∧ a.2.2 = b.2.2

theorem Table.emit_false (adapter : Adapter σ) (options : Options) (i : ℕ) :
    Table.emit false adapter options i = Table.reachableEmit adapter options i := rfl

/-- A traversal that was stopped for lack of memory says so at its end. -/
theorem OutOfMemory.reachableFinish {c : Context} (h : OutOfMemory c) (world : σ) :
    Refused ReachabilityResult.status (some (pfReachableFinish c world)) := by
  rcases pfReachableFinish_cases c h.shape world with hr | ⟨c', he, hs⟩
  · exact hr
  · refine ⟨_, c', world, congrArg some he, hs, ?_⟩
    unfold pfReachableResult
    rw [if_pos h.stopped]
    exact h.status

theorem pfReachableRound_simulates (adapter : Adapter σ) (options : Options)
    (neighbors : σ → StateId → Enumeration σ) (a : ℕ × Context × σ) (b : ℕ × Table × σ)
    (h : MatchesAt options a b) :
    (∃ out, pfReachableRound adapter neighbors a = .inr out ∧
      Refused ReachabilityResult.status (some out)) ∨
    Sum.LiftRel (MatchesAt options)
      (fun r r' => Ends ReachabilityResult.status ReachabilityResult.metrics (some r) (some r'))
      (pfReachableRound adapter neighbors a)
      (Table.reachableRound adapter options neighbors b) := by
  obtain ⟨cursor, c, world⟩ := a
  obtain ⟨cursor', table, world'⟩ := b
  obtain ⟨hcur, hrun, hstop, htab, hworld⟩ := h
  dsimp only at hcur hrun hstop htab hworld
  subst hcur htab hworld
  have hlen : c.table.nodes.length = c.nodeCount := hrun.indexed.length_eq
  have hmetrics : c.table.metrics = c.metrics := rfl
  have hopts := hrun.options_eq
  subst hopts
  unfold pfReachableRound Table.reachableRound
  simp only [hlen, hmetrics]
  by_cases hcur : cursor < c.nodeCount
  swap
  · simp only [if_neg hcur]
    exact Or.inr (Sum.LiftRel.inr (pfReachableFinish_ends c hrun.indexed hrun.generated_le world))
  simp only [if_pos hcur]
  generalize pollCancelled adapter world = poll
  by_cases hpoll : poll.1 = true
  · simp only [if_pos hpoll]
    have hag := hrun.agrees_stop .cancelled .cancelled poll.2
    have hend := pfReachableFinish_ends _ hag.running.indexed hag.running.generated_le poll.2
    rw [hag.table] at hend
    exact Or.inr (Sum.LiftRel.inr hend)
  by_cases hmax : spent c.options.maxExpanded c.metrics.expanded = true
  · simp only [if_neg hpoll, if_pos hmax]
    have hag := hrun.agrees_stop .limitReached .limit poll.2
    have hend := pfReachableFinish_ends _ hag.running.indexed hag.running.generated_le poll.2
    rw [hag.table] at hend
    exact Or.inr (Sum.LiftRel.inr hend)
  simp only [if_neg hpoll, if_neg hmax]
  let c' : Context := { c with metrics := { c.metrics with expanded := c.metrics.expanded+1 } }
  have hrun' : Running false c.options none c' := hrun.control rfl rfl rfl rfl hrun.best_lt rfl
  have htab' : c'.table = { c.table with
    metrics := { c.metrics with expanded := c.metrics.expanded+1 } } := rfl
  rw [← htab', ← Table.emit_false]
  show (∃ out, (if (pfExpand adapter neighbors c' poll.2 cursor).1.stopped then _ else _) = _ ∧ _) ∨
    Sum.LiftRel _ _ (if (pfExpand adapter neighbors c' poll.2 cursor).1.stopped then _ else _) _
  rcases pfExpand_agrees false adapter neighbors c' c.options hrun' poll.2 cursor hcur with
    hoom | ⟨hrun'', htab'', hworld''⟩
  · left
    rw [if_pos hoom.stopped]
    exact ⟨_, rfl, hoom.reachableFinish _⟩
  · right
    rw [← htab'', ← hworld'']
    generalize pfExpand adapter neighbors c' poll.2 cursor = e at hrun'' htab'' hworld'' ⊢
    rw [table_stop_isSome]
    cases hs : e.1.stopped with
    | true =>
      simp only [if_true]
      exact Sum.LiftRel.inr (pfReachableFinish_ends e.1 hrun''.indexed hrun''.generated_le e.2)
    | false =>
      simp only [Bool.false_eq_true, if_false]
      exact Sum.LiftRel.inl ⟨rfl, hrun'', hs, rfl, rfl⟩

/-- The context in which the loop of a traversal begins, if the start node can be stored. -/
theorem pfReachableStart_agrees (c : Context) (hs : Shape c) (options : Options) (world : σ)
    (start : StateId) (added : Option ℕ × Context)
    (ha : pfAddNode { pfReset c options with reachability := true } { state := start } = added) :
    (added.1 = none ∧ Shape added.2) ∨
    (∃ i, added.1 = some i) ∧ MatchesAt options (0, { added.2 with
        metrics := { added.2.metrics with generated := 1, peakFrontier := 1 } }, world)
      (0, { nodes := [{ state := start }], metrics := { generated := 1, peakFrontier := 1 } },
        world) := by
  let c0 : Context := { pfReset c options with reachability := true }
  have hi0 : Indexed c0 := (pfReset_indexed c hs options).control rfl
  rcases pfAddNode_start c0 hi0 rfl { state := start } rfl with
    ⟨m, hash, cap, he, hs'⟩ | ⟨m, hash, cap, nodes, ncap, he, hi1, hnew⟩
  · rw [← ha, he]
    exact Or.inl ⟨rfl, hs'⟩
  · rw [← ha, he]
    right
    let c1 : Context := { c0 with
      memory := m, hash := hash, hashCapacity := cap, nodes := nodes, nodeCapacity := ncap,
      nodeCount := 1, metrics := { generated := 1, peakFrontier := 1 } }
    have hi2 : Indexed c1 := hi1.control rfl
    have hnode : (c1.node 0).erase = { state := start } := by
      have h1 : c1.node 0 = { state := start } := hnew
      rw [h1]
      rfl
    have hpar : ParentsBelow c1 1 := by
      intro i hlt p hp
      obtain rfl : i = 0 := by omega
      have hpar := congrArg PfNode.parent hnode
      rw [show (c1.node 0).erase.parent = (c1.node 0).parent from rfl, hp] at hpar
      cases hpar
    have hrun : Running false options none c1 :=
      ⟨hi2, fun h => absurd h (by simp), rfl, rfl, rfl, fun i h => absurd h (by simp),
        fun i h => absurd h (by simp [c1, c0, pfReset]), hpar, fun h => absurd h (by simp), rfl⟩
    have htab : c1.table = {
        nodes := [{ state := start }], metrics := { generated := 1, peakFrontier := 1 } } :=
      Table.ext (nodeList_singleton c1 hi2 rfl _ hnode) rfl rfl rfl rfl
    exact ⟨⟨0, rfl⟩, rfl, hrun, rfl, htab, rfl⟩

/-- `atrinik_pf_reachable` on a context of any shape against the traversal on tables. -/
theorem atrinikPfReachable_ends (fuel : ℕ) (c : Context) (hs : Shape c)
    (adapter : Option (Adapter σ)) (start : StateId) (options : Option Options) (world : σ) :
    ∃ out, atrinikPfReachable fuel (some c) adapter start options world =
        out.map (fun r => (r.1, some r.2.1, r.2.2)) ∧
      Ends ReachabilityResult.status ReachabilityResult.metrics out
        (Table.reachable fuel adapter start (options.getD atrinikPfOptionsInit) world) := by
  unfold atrinikPfReachable Table.reachable
  dsimp only
  generalize options.getD atrinikPfOptionsInit = options
  let c0 : Context := { pfReset c options with reachability := true }
  have hi0 : Indexed c0 := (pfReset_indexed c hs options).control rfl
  let invalid : ReachabilityResult := { status := .invalidInput, termination := .invalidInput }
  have hinvalid : ∃ out : Finished σ ReachabilityResult,
      some (invalid, some c0, world) = out.map (fun r => (r.1, some r.2.1, r.2.2)) ∧
      Ends ReachabilityResult.status ReachabilityResult.metrics out (some (invalid, world)) :=
    ⟨some (invalid, c0, world), rfl, Ends.same _ _ _ hi0.shape (Nat.zero_le _)⟩
  cases adapter with
  | none => exact hinvalid
  | some adapter =>
    dsimp only
    cases hn : adapter.neighbors with
    | none => exact hinvalid
    | some neighbors =>
      dsimp only
      generalize ha : pfAddNode { pfReset c options with reachability := true }
        { state := start } = added
      rcases pfReachableStart_agrees c hs options world start added ha with
        ⟨hnone, hs'⟩ | ⟨⟨i, hsome⟩, hm⟩
      · rw [hnone]
        exact ⟨some (_, _, world), rfl, Ends.refused _ _ _ _ hs' rfl⟩
      · rw [hsome]
        refine ⟨FuelLoop.run (pfReachableRound adapter neighbors) fuel _, rfl, ?_⟩
        exact Ends.of_simulation (FuelLoop.run_simulation (pfReachableRound adapter neighbors)
          (Table.reachableRound adapter options neighbors) (MatchesAt options)
          (fun r r' => Ends ReachabilityResult.status ReachabilityResult.metrics (some r) (some r'))
          (fun r => Refused ReachabilityResult.status (some r))
          (fun a b hab => pfReachableRound_simulates adapter options neighbors a b hab) fuel _ _ hm)

end LibAtrinik.Pathfinding

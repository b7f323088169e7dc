import LibAtrinik.PathfindingTraversal

namespace LibAtrinik.Pathfinding

open Discovery LabelledWalk

variable {a b : PureAdapter} {start : StateId} {options : Options} {queue : List StateId}

/-- The least number of transitions on a walk between two states. -/
noncomputable def PureAdapter.distance (a : PureAdapter) (u v : StateId) : ℕ :=
  sInf { n | ∃ ts, a.Walk u ts v ∧ ts.length = n }

/-- Two adapters that differ at most in transition costs, goal, heuristic and rank. -/
structure PureAdapter.SameGraph (a b : PureAdapter) : Prop where
  transitions : ∀ s, (a.transitions s).map Transition.step = (b.transitions s).map Transition.step
  enumerated : a.enumerated = b.enumerated
  ignoresStop : a.ignoresStop = b.ignoresStop
  cancelled : a.cancelled = b.cancelled

theorem pollCancelled_congr (h : a.cancelled = b.cancelled) (polls : ℕ) :
    pollCancelled a.toAdapter polls = pollCancelled b.toAdapter polls := by
  simp only [pollCancelled, PureAdapter.toAdapter, h]

/-- A traversal looks at the target and the data of a transition only. -/
theorem reachableEmit_congr (h : a.SameGraph b) (active : ℕ) (table : Table) (polls : ℕ)
    (t u : Transition) (htu : t.step = u.step) :
    Table.reachableEmit a.toAdapter options active table polls (some t) =
      Table.reachableEmit b.toAdapter options active table polls (some u) := by
  have hstate : t.state = u.state := congrArg Step.state htu
  have hdata : t.data = u.data := congrArg Step.data htu
  unfold Table.reachableEmit Table.emitGuarded Table.emitReachable
  simp only [pollCancelled_congr h.cancelled, hstate, hdata]

theorem enumerate_congr (options : Options) (h : a.SameGraph b) (active : ℕ) (state : StateId)
    (ts us : List Transition) (htu : ts.map Transition.step = us.map Transition.step)
    (table : Table) (polls : ℕ) :
    (a.enumerate state ts polls).run (Table.reachableEmit a.toAdapter options active) table =
      (b.enumerate state us polls).run (Table.reachableEmit b.toAdapter options active) table := by
  induction ts generalizing us table polls with
  | nil =>
    obtain rfl : us = [] := by simpa using htu.symm
    simp only [PureAdapter.enumerate, Enumeration.run, h.enumerated]
  | cons t ts ih =>
    rcases us with _ | ⟨u, us⟩
    · cases htu
    · obtain ⟨htu, hrest⟩ := List.cons.inj htu
      simp only [PureAdapter.enumerate, Enumeration.run, reachableEmit_congr h active table polls
        t u htu, h.ignoresStop]
      split_ifs
      · exact ih us hrest _ _
      · rfl

theorem reachable_congr (h : a.SameGraph b) (fuel : ℕ) (start : StateId) (options : Options)
    (polls : ℕ) :
    Table.reachable fuel (some a.toAdapter) start options polls =
      Table.reachable fuel (some b.toAdapter) start options polls := by
  have hround : a.reachableRound options = b.reachableRound options := by
    funext s
    obtain ⟨cursor, table, polls⟩ := s
    unfold PureAdapter.reachableRound Table.reachableRound Table.expand
    have hrun (state : StateId) (table : Table) (polls : ℕ) :=
      enumerate_congr options h cursor state _ _ (h.transitions state) table polls
    simp only [pollCancelled_congr h.cancelled, hrun]
  rw [reachable_toAdapter, reachable_toAdapter, hround]

/-- What a traversal on a context returns, if it is no failure of memory, is what the traversal
on tables returns. -/
theorem reachable_of_context {σ : Type} (c : Context) (hc : LeftBehind c) (fuel : ℕ)
    (adapter : Option (Adapter σ)) (start : StateId) (options : Option Options) (world world' : σ)
    (r : ReachabilityResult) (c' : Option Context)
    (h : atrinikPfReachable fuel (some c) adapter start options world = some (r, c', world'))
    (hr : r.status ≠ .outOfMemory) :
    Table.reachable fuel adapter start (options.getD atrinikPfOptionsInit) world =
      some (r, world') := by
  have ha : Allocated ReachabilityResult.status
      (atrinikPfReachable fuel (some c) adapter start options world) := by
    rw [h]
    intro r' hr'
    rw [← Option.some.inj hr']
    exact hr
  rw [← outcome_reachable fuel c hc.shape adapter start options world ha, h]
  rfl

/-- A traversal that is complete has explored everything. -/
theorem reachable_complete_explored (fuel polls polls' : ℕ) (r : ReachabilityResult)
    (h : Table.reachable fuel (some a.toAdapter) start options polls = some (r, polls'))
    (hr : r.status = .complete) :
    Discovery.Explored a.transitions Transition.state start r.states r.states.length [] := by
  rcases reachable_last a options start fuel polls polls' r h with ⟨table, hex, hs, rfl⟩ |
    ⟨last, ⟨status, termination, hst, hreason, _⟩, rfl⟩
  · have hlen : (statesOf table.nodes).length = table.nodes.length := List.length_map _
    have hex' := hex
    unfold PureAdapter.Explored at hex'
    rw [← hlen] at hex'
    exact hex'
  · -- a traversal that was stopped reports the reason
    unfold Table.finishReachable at hr
    rw [hst] at hr
    cases hreason <;> cases hr

theorem distance_le (hex : Discovery.Explored a.transitions Transition.state start queue
    queue.length []) (i j : ℕ) (u v : StateId) (hi : queue[i]? = some u) (hj : queue[j]? = some v)
    (hij : i ≤ j) : a.distance start u ≤ a.distance start v := by
  obtain ⟨ts, hts⟩ := hex.sound v (List.mem_of_getElem? hj)
  have hne : { n | ∃ ts, a.Walk start ts v ∧ ts.length = n }.Nonempty := ⟨_, ts, hts, rfl⟩
  obtain ⟨ts', hts', hlen⟩ := Nat.sInf_mem hne
  obtain ⟨us, hus, hle⟩ := hex.shorter _ i j u v hi hj hij ts' hts' hlen
  have hdist : a.distance start u ≤ us.length := Nat.sInf_le ⟨us, hus, rfl⟩
  exact hdist.trans hle

/-- A complete traversal lists exactly the reachable states, each once, the start first, by
distance and in the order of their discovery; costs, goal, heuristic and rank do not matter. -/
theorem reachable_complete_listing (a : PureAdapter) (c : Context) (hc : LeftBehind c) (fuel : ℕ)
    (start : StateId) (options : Option Options) (polls polls' : ℕ) (r : ReachabilityResult)
    (c' : Option Context)
    (h : atrinikPfReachable fuel (some c) (some a.toAdapter) start options polls =
      some (r, c', polls'))
    (hr : r.status = .complete) :
    r.states.Nodup ∧
    (∀ s, s ∈ r.states ↔ Reachable a.transitions Transition.state start s) ∧
    r.states.head? = some start ∧
    r.states.Pairwise (fun s s' => a.distance start s ≤ a.distance start s') ∧
    r.states = firstSeen (start :: r.states.flatMap fun s => (a.transitions s).map (·.state)) ∧
    (∀ i j p q u v, r.states[i]? = some u → r.states[j]? = some v → 0 < i → 0 < j →
      FirstFrom a.transitions Transition.state r.states p u →
      FirstFrom a.transitions Transition.state r.states q v → p < q → i < j) ∧
    (∀ b : PureAdapter, a.SameGraph b → ∀ d d' s polls'', LeftBehind d →
      atrinikPfReachable fuel (some d) (some b.toAdapter) start options polls =
        some (s, d', polls'') → s.status ≠ .outOfMemory → s = r) := by
  have htable := reachable_of_context c hc fuel _ start options polls polls' r c' h
    (by rw [hr]; decide)
  have hex := reachable_complete_explored fuel polls polls' r htable hr
  refine ⟨hex.nodup, hex.mem_iff, ?_, ?_, ?_, ?_, ?_⟩
  · rw [List.head?_eq_getElem?]
    exact hex.head
  · rw [List.pairwise_iff_getElem]
    intro i j hi hj hij
    exact distance_le hex i j _ _ (List.getElem?_eq_getElem hi) (List.getElem?_eq_getElem hj)
      (Nat.le_of_lt hij)
  · have hlist := hex.listing
    rwa [List.take_length] at hlist
  · intro i j p q u v hi hj h0 h0' hp hq hpq
    by_contra hij
    have := hex.order j i v u q p hj hi h0' (by omega) hq hp
    omega
  · intro b hb d d' s polls'' hd hrun hs
    have htable' := reachable_of_context d hd fuel _ start options polls polls'' s d' hrun hs
    rw [← reachable_congr hb, htable] at htable'
    exact (congrArg Prod.fst (Option.some.inj htable')).symm

theorem reachable_complete_listing_detour :
    ([0, 1, 2, 4] : List StateId).Nodup ∧
    (∀ s, s ∈ ([0, 1, 2, 4] : List StateId) ↔
      Reachable (detour (· = 4) fun _ => 0).transitions Transition.state 0 s) := by
  have h := reachable_complete_listing (detour (· = 4) fun _ => 0)
    (atrinikPfContextCreate fun _ => true) (.created _) 9 0 none 0 _ _ _ rfl rfl
  exact ⟨h.1, h.2.1⟩

end LibAtrinik.Pathfinding

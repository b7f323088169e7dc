import Mathlib.Algebra.Order.BigOperators.Group.Finset
import LibAtrinik.PathfindingListing

namespace LibAtrinik.Pathfinding

open SearchForest LabelledWalk

variable {a : PureAdapter} {algorithm : Algorithm} {start : StateId} {active : ℕ} {t : Transition}
  {nodes nodes' : List PfNode}

/-- The frontier has a least node as long as it has any. -/
theorem exists_isNext (i : ℕ) (h : IsOpen nodes i) : ∃ j, IsNext nodes j := by
  have hne : ((Finset.range nodes.length).filter (IsOpen nodes)).Nonempty :=
    ⟨i, Finset.mem_filter.mpr ⟨Finset.mem_range.mpr h.1, h⟩⟩
  obtain ⟨j, hj, hmin⟩ := Finset.exists_min_image _ (fun j => nodeKey (nodeAt nodes j)) hne
  refine ⟨j, (Finset.mem_filter.mp hj).2, fun k hk ho => hmin k ?_⟩
  exact Finset.mem_filter.mpr ⟨Finset.mem_range.mpr hk, ho⟩

theorem not_isOpen_of_nextOpen (h : nextOpen nodes = none) (i : ℕ) : ¬IsOpen nodes i := by
  intro ho
  obtain ⟨j, hj⟩ := exists_isNext i ho
  unfold nextOpen at h
  have := List.find?_eq_none.mp h j (List.mem_range.mpr hj.1.1)
  simp [hj] at this

/-- What a node can still contribute to the length of a search. -/
def weight (node : PfNode) : ℕ := 2*node.cost+if node.closed then 0 else 1

/-- The bound on the remaining rounds: nodes can become cheaper or be closed, and new nodes
can be discovered. -/
def remaining (nodes : List PfNode) : ℕ :=
  (∑ i ∈ Finset.range nodes.length, weight (nodeAt nodes i))+(2^64-nodes.length)*2^65

theorem Sound.length_le (h : Sound a algorithm start nodes) : nodes.length ≤ 2^64 := by
  have hnodup : (statesOf nodes).Nodup := by
    rw [List.nodup_iff_injective_getElem]
    rintro ⟨i, hi⟩ ⟨j, hj⟩ hij
    have hlen : (statesOf nodes).length = nodes.length := List.length_map _
    rw [hlen] at hi hj
    have hstate : (nodeAt nodes i).state = (nodeAt nodes j).state := by
      simpa [statesOf, nodeAt, hi, hj] using hij
    exact Fin.ext (h.distinct i hi j hj hstate)
  have hlen := nodup_states_length _ hnodup
  rwa [statesOf, List.length_map] at hlen

/-- Writing a node does not raise the bound. -/
theorem Written.remaining_le {k : ℕ} (h : Written a algorithm active t nodes nodes' k)
    (hs : Sound a algorithm start nodes) (hs' : Sound a algorithm start nodes')
    (ha : active < nodes.length) : remaining nodes' ≤ remaining nodes := by
  have hroom := h.room
  have hmax := hs.bounded active ha
  have hlen' := hs'.length_le
  have hl := h.length
  have hw : weight (nodeAt nodes' k) =
      2*((nodeAt nodes active).cost+stepCost algorithm t)+1 := by
    rw [h.node, if_pos rfl]
    rfl
  have hu : uint64Max = 2^64-1 := rfl
  unfold remaining
  rcases h.better with ⟨hk, _⟩ | ⟨hk, _, hlt⟩
  · -- a new node takes the place of the room reserved for it
    have hsum : ∑ i ∈ Finset.range nodes.length, weight (nodeAt nodes' i) =
        ∑ i ∈ Finset.range nodes.length, weight (nodeAt nodes i) := by
      apply Finset.sum_congr rfl
      intro i hi
      rw [h.node, if_neg (by have := Finset.mem_range.mp hi; omega)]
    obtain hl' : nodes'.length = nodes.length+1 := by omega
    rw [hl', Finset.sum_range_succ, hsum, ← hk, hw]
    have hsplit : 2^64-k = (2^64-(k+1))+1 := by omega
    rw [hsplit, Nat.add_mul, Nat.one_mul]
    omega
  · -- an old node has become cheaper by at least one
    obtain hl' : nodes'.length = nodes.length := by omega
    rw [hl']
    apply Nat.add_le_add_right
    apply Finset.sum_le_sum
    intro i _
    by_cases hik : i = k
    · rw [hik, hw]
      unfold weight
      split_ifs <;> omega
    · rw [h.node, if_neg hik]

theorem Midway.remaining_le {c : ℕ} {done ts : List Transition}
    (h : Midway a algorithm start nodes c done)
    (hts : ∀ t ∈ ts, t ∈ a.transitions (nodeAt nodes c).state)
    (hr : RelaxAll a algorithm c ts nodes nodes') : remaining nodes' ≤ remaining nodes := by
  induction hr generalizing done with
  | nil nodes => exact le_rfl
  | cons t ts nodes mid nodes' hr _ ih =>
    have ht := hts t List.mem_cons_self
    obtain ⟨hmid, hstate⟩ := h.relax ht hr
    have hrest := ih hmid (fun t' ht' => by
      rw [hstate]
      exact hts t' (List.mem_cons_of_mem t ht'))
    rcases hr.written h.toSound with ⟨rfl, _⟩ | ⟨k, hw⟩
    · exact hrest
    · exact hrest.trans (hw.remaining_le h.toSound hmid.toSound h.bound)

theorem remaining_closeAt (i : ℕ) (h : IsOpen nodes i) :
    remaining (closeAt nodes i) < remaining nodes := by
  unfold remaining
  rw [closeAt_length]
  apply Nat.add_lt_add_right
  apply Finset.sum_lt_sum
  · intro j _
    rw [nodeAt_closeAt nodes i j h.1]
    split_ifs with hj
    · rw [hj]
      unfold weight
      simp
    · exact le_rfl
  · refine ⟨i, Finset.mem_range.mpr h.1, ?_⟩
    rw [nodeAt_closeAt nodes i i h.1, if_pos rfl]
    unfold weight
    rw [h.2]
    simp

/-- Every round lowers the bound. -/
theorem Coherent.remaining_lt {i : ℕ} (h : Coherent a algorithm start nodes)
    (hexp : Expands a algorithm i nodes nodes') : remaining nodes' < remaining nodes := by
  have hi := hexp.next.1
  have hmid := h.close hexp.next hexp.noGoal
  have hle := hmid.remaining_le (fun t ht => by rwa [closeAt_state nodes i i hi.1]) hexp.relaxed
  exact lt_of_le_of_lt hle (remaining_closeAt i hi)

/-- The end of a search always finds the path that it describes. -/
theorem finish_isSome (options : Options) (table : Table) (hs : Sound a algorithm start table.nodes)
    (hg : Grounded (forestOf table.nodes)) (hb : BestBelow table) (status : Status)
    (termination : Termination) (node : Option ℕ)
    (hn : ∀ i, node = some i → i < table.nodes.length) :
    ∃ r, table.finish options status termination node = some r := by
  have hpath (result : SearchResult) (i : ℕ) (hi : i < table.nodes.length) :
      ∃ r, table.finishPath result i = some r := by
    obtain ⟨steps, hsteps⟩ := pathTo_isSome hs hg i hi
    exact ⟨_, Option.map_eq_some_iff.mpr ⟨steps, hsteps, rfl⟩⟩
  unfold Table.finish
  cases node with
  | some i => exact hpath _ i (hn i rfl)
  | none =>
    cases hp : table.partialNode with
    | none => exact ⟨_, rfl⟩
    | some best =>
      dsimp only
      split_ifs
      · exact hpath _ best (hb best hp)
      · exact ⟨_, rfl⟩

/-- A round that continues keeps the invariant and lowers the bound. -/
theorem searchRound_lowers (a : PureAdapter) (options : Options) (start : StateId)
    (s next : Table × ℕ)
    (h : Coherent a options.algorithm start s.1.nodes ∧ s.1.stop = none ∧ BestBelow s.1)
    (hnext : a.searchRound options s = .inl next) :
    (Coherent a options.algorithm start next.1.nodes ∧ next.1.stop = none ∧ BestBelow next.1) ∧
      remaining next.1.nodes < remaining s.1.nodes := by
  obtain ⟨hco, hst, hb⟩ := h
  have hres := searchRound_result a options s.1 s.2 hst hb
  rw [hnext] at hres
  cases hres with
  | continues i next polls hexp hstop hbest =>
    exact ⟨⟨hco.expands hexp, hstop, hbest⟩, hco.remaining_lt hexp⟩

/-- The last round leaves a result, because parent chains end. -/
theorem finishCall_isSome (a : PureAdapter) (options : Options) (start : StateId)
    (fuel polls : ℕ) (call : FinishCall)
    (hcall : a.finishCall options start fuel polls = some call) :
    ∃ r p, call.finish options = some (r, p) := by
  obtain ⟨table, hco, _, hb, hres⟩ := finishCall_last a options start fuel polls call hcall
    (fun _ => True) trivial (fun _ _ _ _ _ _ => trivial)
  cases hres with
  | found i polls hnext hgoal =>
    obtain ⟨r, hr⟩ := finish_isSome options table hco.toSound hco.forest.toGrounded hb
      .found .goal (some i) (fun j hj => Option.some.inj hj ▸ hnext.1.1)
    exact ⟨r, polls, by rw [FinishCall.finish, hr]; rfl⟩
  | exhausted polls hnone =>
    obtain ⟨r, hr⟩ := finish_isSome options table hco.toSound hco.forest.toGrounded hb
      .noPath .exhausted none (fun j hj => by cases hj)
    exact ⟨r, polls, by rw [FinishCall.finish, hr]; rfl⟩
  | halted last cut polls status termination hreason hbest hcut =>
    obtain ⟨hs', hg'⟩ := hco.interrupted hcut
    obtain ⟨r, hr⟩ := finish_isSome options last hs' hg' hbest
      status termination none (fun j hj => by cases hj)
    exact ⟨r, polls, by rw [FinishCall.finish, hr]; rfl⟩

/-- A search with a pure adapter comes back. -/
theorem search_terminates (a : PureAdapter) (options : Options) (start : StateId)
    (polls fuel : ℕ) (hfuel : 2^129 ≤ fuel) :
    ∃ r polls', Table.search fuel (some a.toAdapter) start options polls = some (r, polls') := by
  rw [search_toAdapter]
  split_ifs with hv
  swap
  · exact ⟨_, _, rfl⟩
  obtain ⟨hnodes, hstop, hbest⟩ := start_nodes a options polls start
  have hmeasure : remaining (Table.start a.toAdapter options polls start).1.nodes < fuel := by
    rw [hnodes]
    refine lt_of_lt_of_le ?_ hfuel
    have hone : remaining [({
        state := start
        heuristic := a.score options.algorithm start
        priority := pfPriority options.algorithm 0 (a.score options.algorithm start) } : PfNode)] =
        1+(2^64-1)*2^65 := rfl
    rw [hone]
    decide
  obtain ⟨call, hcall⟩ := FuelLoop.run_terminates (a.searchRound options) _
    (fun s => remaining s.1.nodes) (searchRound_lowers a options start) fuel _
    ⟨by rw [hnodes]; exact coherent_singleton a options.algorithm start, hstop, hbest⟩ hmeasure
  rw [show a.finishCall options start fuel polls = some call from hcall]
  exact finishCall_isSome a options start fuel polls call hcall

/-- Some goal can be reached from the state. -/
def PureAdapter.GoalReachable (a : PureAdapter) (start : StateId) : Prop :=
  ∃ ts g, a.Walk start ts g ∧ a.goal g = true

/-- Nothing but an overflow can stop a search: no budget, no cancellation, no failure of the
adapter. -/
structure PureAdapter.Unhindered (a : PureAdapter) (options : Options) : Prop where
  cancelled : a.cancelled = none
  enumerated : ∀ s, a.enumerated s = true
  maxExpanded : options.maxExpanded = 0
  maxGenerated : options.maxGenerated = 0
  maxTransitions : options.maxTransitions = 0
  maxFrontier : options.maxFrontier = 0

theorem StopReason.overflow_of {a : PureAdapter} {options : Options} {status : Status}
    {termination : Termination} (h : StopReason a options status termination)
    (hfree : a.Unhindered options) : status = .costOverflow ∧ termination = .costOverflow := by
  cases h with
  | cancelled h => exact absurd hfree.cancelled h
  | limit h =>
    exact absurd ⟨hfree.maxExpanded, hfree.maxGenerated, hfree.maxTransitions, hfree.maxFrontier⟩ h
  | overflow => exact ⟨rfl, rfl⟩
  | failure state h =>
    rw [hfree.enumerated] at h
    cases h

/-- The answer of a search about the goals: with `returnPartial`, the end of the frontier is
reported as a partial path. -/
def Answers (a : PureAdapter) (start : StateId) (options : Options) (r : SearchResult) : Prop :=
  r.status = .costOverflow ∨ (r.status = .found ∧ a.GoalReachable start) ∨
    ((r.status = .noPath ∨
      (r.status = .partialPath ∧ r.termination = .exhausted ∧ options.returnPartial = true)) ∧
      ¬a.GoalReachable start)

/-- With an empty frontier no goal can be reached. -/
theorem Coherent.no_goal (h : Coherent a algorithm start nodes) (hnone : nextOpen nodes = none) :
    ¬a.GoalReachable start := by
  rintro ⟨ts, g, hw, hg⟩
  obtain ⟨_, _, _, i, _, _, ho, _, _⟩ := h.crosses ts g hw hg
  exact not_isOpen_of_nextOpen hnone i ho

theorem search_answers (options : Options) (hfree : a.Unhindered options)
    (hvalid : pfValidInput a.toAdapter options = true) (fuel polls polls' : ℕ) (r : SearchResult)
    (h : Table.search fuel (some a.toAdapter) start options polls = some (r, polls')) :
    Answers a start options r := by
  rcases search_last a options start fuel polls polls' r h with ⟨hinv, _⟩ |
    ⟨_, table, call, _, hco, hb, hround, hout⟩
  · rw [hvalid] at hinv
    cases hinv
  cases hround with
  | found i polls hnext hgoal =>
    obtain ⟨r', hr', heq⟩ := Option.map_eq_some_iff.mp hout
    obtain rfl : r' = r := congrArg Prod.fst heq
    obtain ⟨steps, hsteps, rfl⟩ := finishPath_eq_some _ _ _ _ hr'
    obtain ⟨ts, hw, _⟩ := pathTo_walk hco.toSound hco.forest.toGrounded _ i hnext.1.1 steps hsteps
    exact Or.inr (Or.inl ⟨rfl, ts, _, hw, hgoal⟩)
  | exhausted polls hnone =>
    obtain ⟨r', hr', heq⟩ := Option.map_eq_some_iff.mp hout
    obtain rfl : r' = r := congrArg Prod.fst heq
    refine Or.inr (Or.inr ⟨?_, hco.no_goal hnone⟩)
    rcases finish_none_cases _ _ _ _ _ hr' with rfl | ⟨best, _, hret, _, hp⟩
    · exact Or.inl rfl
    · obtain ⟨steps, _, rfl⟩ := finishPath_eq_some _ _ _ _ hp
      exact Or.inr ⟨rfl, rfl, hret⟩
  | halted last cut polls status termination hreason hbest hcut =>
    obtain ⟨rfl, rfl⟩ := hreason.overflow_of hfree
    obtain ⟨r', hr', heq⟩ := Option.map_eq_some_iff.mp hout
    obtain rfl : r' = r := congrArg Prod.fst heq
    rcases finish_none_cases _ _ _ _ _ hr' with rfl | ⟨best, _, _, hterm, _⟩
    · exact Or.inl rfl
    · -- an overflow is never turned into a partial path
      rcases hterm with h | h | h <;> cases h

/-- The states of a traversal that is not hindered hold a goal exactly if one can be reached. -/
theorem reachable_answers (options : Options) (hfree : a.Unhindered options)
    (fuel polls polls' : ℕ) (r : ReachabilityResult)
    (h : Table.reachable fuel (some a.toAdapter) start options polls = some (r, polls')) :
    r.status = .complete ∧ ((∃ g ∈ r.states, a.goal g = true) ↔ a.GoalReachable start) := by
  have hcomplete : r.status = .complete := by
    rcases reachable_last a options start fuel polls polls' r h with ⟨table, _, hs, rfl⟩ |
      ⟨last, ⟨status, termination, _, hreason, hne⟩, _⟩
    · unfold Table.finishReachable
      rw [hs]
      rfl
    · exact absurd (hreason.overflow_of hfree).1 hne
  have hex := reachable_complete_explored fuel polls polls' r h hcomplete
  refine ⟨hcomplete, ?_⟩
  constructor
  · rintro ⟨g, hmem, hg⟩
    obtain ⟨ts, hw⟩ := hex.sound g hmem
    exact ⟨ts, g, hw, hg⟩
  · rintro ⟨ts, g, hw, hg⟩
    exact ⟨g, (hex.mem_iff g).mpr ⟨ts, hw⟩, hg⟩

theorem Answers.found_iff {r : SearchResult} {options : Options} (h : Answers a start options r)
    (hr : r.status ≠ .costOverflow) : r.status = .found ↔ a.GoalReachable start := by
  rcases h with h | ⟨h, hg⟩ | ⟨h, hg⟩
  · exact absurd h hr
  · exact iff_of_true h hg
  · refine iff_of_false (fun hf => ?_) hg
    rcases h with h | ⟨h, _⟩ <;> rw [h] at hf <;> cases hf

/-- An operation on a context comes back when the operation on tables does. -/
theorem Ends.exists_result {σ ρ : Type} {status : ρ → Status} {metrics : ρ → Metrics}
    {out : Finished σ ρ} {x : ρ × σ} (h : Ends status metrics out (some x)) :
    ∃ r, (out.map fun r => (r.1, some r.2.1, r.2.2)) = some r := by
  cases h with
  | same result c world _ _ => exact ⟨_, rfl⟩
  | refused result c world _ _ _ => exact ⟨_, rfl⟩

theorem search_returns (a : PureAdapter) (start : StateId) (c : Context) (hc : LeftBehind c)
    (options : Option Options) (fuel polls : ℕ) (hfuel : 2^129 ≤ fuel) :
    ∃ r, atrinikPfSearch fuel (some c) (some a.toAdapter) start options polls = some r := by
  obtain ⟨r, p, hr⟩ := search_terminates a (options.getD atrinikPfOptionsInit) start polls fuel hfuel
  obtain ⟨out, hout, hend⟩ := atrinikPfSearch_ends fuel c hc.shape (some a.toAdapter) start options
    polls
  rw [hr] at hend
  rw [hout]
  exact hend.exists_result

theorem reachable_returns (a : PureAdapter) (start : StateId) (c : Context) (hc : LeftBehind c)
    (options : Option Options) (fuel polls : ℕ) (hfuel : 2^64 < fuel) :
    ∃ r, atrinikPfReachable fuel (some c) (some a.toAdapter) start options polls = some r := by
  obtain ⟨x, hx⟩ := reachable_terminates a (options.getD atrinikPfOptionsInit) start polls fuel hfuel
  obtain ⟨out, hout, hend⟩ := atrinikPfReachable_ends fuel c hc.shape (some a.toAdapter) start
    options polls
  rw [hx] at hend
  rw [hout]
  exact hend.exists_result

/-- Searches that nothing hinders answer rightly about reachability, whatever the algorithms, and
agree with each other and with the traversal. -/
theorem searches_agree_on_reachability (a : PureAdapter) (start : StateId) (o₁ o₂ o₃ : Options)
    (h₁ : a.Unhindered o₁) (h₂ : a.Unhindered o₂) (h₃ : a.Unhindered o₃)
    (hv₁ : pfValidInput a.toAdapter o₁ = true) (hv₂ : pfValidInput a.toAdapter o₂ = true)
    (c₁ c₂ c₃ : Context) (hc₁ : LeftBehind c₁) (hc₂ : LeftBehind c₂) (hc₃ : LeftBehind c₃)
    (polls fuel : ℕ) (hfuel : 2^129 ≤ fuel) :
    ∃ r₁ r₂ s,
      atrinikPfSearch fuel (some c₁) (some a.toAdapter) start (some o₁) polls = some r₁ ∧
      atrinikPfSearch fuel (some c₂) (some a.toAdapter) start (some o₂) polls = some r₂ ∧
      atrinikPfReachable fuel (some c₃) (some a.toAdapter) start (some o₃) polls = some s ∧
      (r₁.1.status ≠ .outOfMemory → Answers a start o₁ r₁.1) ∧
      (s.1.status ≠ .outOfMemory → s.1.status = .complete) ∧
      (r₁.1.status ≠ .outOfMemory → r₁.1.status ≠ .costOverflow →
        (r₂.1.status ≠ .outOfMemory → r₂.1.status ≠ .costOverflow →
          (r₁.1.status = .found ↔ r₂.1.status = .found)) ∧
        (s.1.status ≠ .outOfMemory →
          (r₁.1.status = .found ↔ ∃ g ∈ s.1.states, a.goal g = true))) := by
  obtain ⟨⟨r₁, d₁, p₁⟩, hr₁⟩ := search_returns a start c₁ hc₁ (some o₁) fuel polls hfuel
  obtain ⟨⟨r₂, d₂, p₂⟩, hr₂⟩ := search_returns a start c₂ hc₂ (some o₂) fuel polls hfuel
  obtain ⟨⟨s, d₃, p₃⟩, hs⟩ := reachable_returns a start c₃ hc₃ (some o₃) fuel polls
    (lt_of_lt_of_le (by decide) hfuel)
  have ha₁ (h : r₁.status ≠ .outOfMemory) : Answers a start o₁ r₁ :=
    search_answers o₁ h₁ hv₁ fuel polls p₁ r₁
      (search_of_context c₁ hc₁ fuel _ start (some o₁) polls p₁ r₁ d₁ hr₁ h)
  have ha₂ (h : r₂.status ≠ .outOfMemory) : Answers a start o₂ r₂ :=
    search_answers o₂ h₂ hv₂ fuel polls p₂ r₂
      (search_of_context c₂ hc₂ fuel _ start (some o₂) polls p₂ r₂ d₂ hr₂ h)
  have ha₃ (h : s.status ≠ .outOfMemory) :=
    reachable_answers o₃ h₃ fuel polls p₃ s
      (reachable_of_context c₃ hc₃ fuel _ start (some o₃) polls p₃ s d₃ hs h)
  refine ⟨(r₁, d₁, p₁), (r₂, d₂, p₂), (s, d₃, p₃), hr₁, hr₂, hs, ha₁, fun h => (ha₃ h).1, ?_⟩
  intro hm ho
  have hiff := (ha₁ hm).found_iff ho
  exact ⟨fun hm₂ ho₂ => hiff.trans ((ha₂ hm₂).found_iff ho₂).symm,
    fun hm₃ => hiff.trans (ha₃ hm₃).2.symm⟩

/-- The detour graph without a goal in reach, searched with all budgets zero. -/
theorem exhausted_search_returns_partial :
    let a := detour (· = 7) fun _ => 0
    let options : Options := { algorithm := .dijkstra, returnPartial := true }
    a.Unhindered options ∧ pfValidInput a.toAdapter options = true ∧
      ((atrinikPfSearch 9 (some (atrinikPfContextCreate fun _ => true)) (some a.toAdapter) 0
        (some options) 0).map fun r => (r.1.status, r.1.termination)) =
        some (.partialPath, .exhausted) :=
  ⟨⟨rfl, fun _ => rfl, rfl, rfl, rfl, rfl⟩, rfl, rfl⟩

theorem searches_agree_on_reachability_detour :
    ∃ r₁ r₂ s,
      atrinikPfSearch (2^129) (some (atrinikPfContextCreate fun _ => true))
        (some (detour (· = 4) steepHeuristic).toAdapter) 0 (some { algorithm := .astar }) 0 =
        some r₁ ∧
      atrinikPfSearch (2^129) (some (atrinikPfContextCreate fun _ => true))
        (some (detour (· = 4) steepHeuristic).toAdapter) 0 (some { algorithm := .dijkstra }) 0 =
        some r₂ ∧
      atrinikPfReachable (2^129) (some (atrinikPfContextCreate fun _ => true))
        (some (detour (· = 4) steepHeuristic).toAdapter) 0 (some { algorithm := .astar }) 0 =
        some s ∧
      (r₁.1.status ≠ .outOfMemory →
        Answers (detour (· = 4) steepHeuristic) 0 { algorithm := .astar } r₁.1) ∧
      (s.1.status ≠ .outOfMemory → s.1.status = .complete) ∧
      (r₁.1.status ≠ .outOfMemory → r₁.1.status ≠ .costOverflow →
        (r₂.1.status ≠ .outOfMemory → r₂.1.status ≠ .costOverflow →
          (r₁.1.status = .found ↔ r₂.1.status = .found)) ∧
        (s.1.status ≠ .outOfMemory →
          (r₁.1.status = .found ↔
            ∃ g ∈ s.1.states, (detour (· = 4) steepHeuristic).goal g = true))) :=
  searches_agree_on_reachability (detour (· = 4) steepHeuristic) 0 { algorithm := .astar }
    { algorithm := .dijkstra } { algorithm := .astar } ⟨rfl, fun _ => rfl, rfl, rfl, rfl, rfl⟩
    ⟨rfl, fun _ => rfl, rfl, rfl, rfl, rfl⟩ ⟨rfl, fun _ => rfl, rfl, rfl, rfl, rfl⟩ rfl rfl
    (atrinikPfContextCreate fun _ => true) (atrinikPfContextCreate fun _ => true)
    (atrinikPfContextCreate fun _ => true) (.created _) (.created _) (.created _) 0 (2^129) le_rfl

end LibAtrinik.Pathfinding

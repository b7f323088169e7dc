import Mathlib.Order.Bounds.Basic
import LibAtrinik.PathfindingPaths
import LibAtrinik.PathfindingReuse

namespace LibAtrinik.Pathfinding

open SearchForest LabelledWalk

variable {a : PureAdapter} {algorithm : Algorithm} {start : StateId} {nodes : List PfNode}

/-- The heuristic is never above the cost of a walk to a goal. -/
def PureAdapter.Admissible (a : PureAdapter) : Prop :=
  ∀ heuristic, a.heuristic = some heuristic → ∀ s ts g, a.Walk s ts g → a.goal g = true →
    (heuristic s).toNat ≤ cost (fun t => t.cost.toNat) ts

/-- The costs of the walks from a state to the goals. -/
def PureAdapter.goalCosts (a : PureAdapter) (weight : Transition → ℕ) (start : StateId) : Set ℕ :=
  { n | ∃ ts g, a.Walk start ts g ∧ a.goal g = true ∧ cost weight ts = n }

theorem score_le (hadm : a.Admissible) (s g : StateId) (ts : List Transition)
    (hw : a.Walk s ts g) (hg : a.goal g = true) (halg : algorithm ≠ .greedyBestFirst) :
    a.score algorithm s ≤ cost (stepCost algorithm) ts := by
  unfold PureAdapter.score
  split_ifs with h
  · obtain rfl := h.resolve_right halg
    cases hh : a.heuristic with
    | none => exact Nat.zero_le _
    | some heuristic => exact hadm heuristic hh s ts g hw hg
  · exact Nat.zero_le _

/-- The priority of a node is a lower bound of what a walk through it costs, unless that is
beyond the range of costs. -/
theorem priority_le (cost heuristic bound : ℕ) (h : cost+heuristic ≤ bound) (_ : bound ≤ uint64Max)
    (halg : algorithm ≠ .greedyBestFirst) : pfPriority algorithm cost heuristic ≤ bound := by
  unfold pfPriority
  rw [if_neg halg]
  split_ifs <;> omega

/-- At a goal the heuristic vanishes and the priority is the cost. -/
theorem priority_goal (cost : ℕ) (halg : algorithm ≠ .greedyBestFirst) :
    pfPriority algorithm cost 0 = cost := by
  unfold pfPriority
  rw [if_neg halg]
  split_ifs <;> omega

/-- A walk to a state that has not been closed crosses the frontier at a node that costs no more than
the walk does up to there. -/
theorem Coherent.crosses_of_open (h : Coherent a algorithm start nodes) (ts : List Transition)
    (g : StateId) (hw : a.Walk start ts g)
    (hopen : ∀ i < nodes.length, (nodeAt nodes i).state = g → (nodeAt nodes i).closed = false) :
    ∃ front back m i, ts = front ++ back ∧ a.Walk m back g ∧ IsOpen nodes i ∧
      (nodeAt nodes i).state = m ∧ (nodeAt nodes i).cost ≤ cost (stepCost algorithm) front := by
  let P (s : StateId) (c : ℕ) : Prop :=
    ∃ i < nodes.length, (nodeAt nodes i).state = s ∧ (nodeAt nodes i).cost ≤ c
  let F (s : StateId) (c : ℕ) : Prop :=
    ∃ i, IsOpen nodes i ∧ (nodeAt nodes i).state = s ∧ (nodeAt nodes i).cost ≤ c
  have hstep (s : StateId) (c : ℕ) (hP : P s c) :
      F s c ∨ ∀ t ∈ a.transitions s, P t.state (c+stepCost algorithm t) := by
    obtain ⟨i, hi, rfl, hc⟩ := hP
    cases hcl : (nodeAt nodes i).closed with
    | false => exact Or.inl ⟨i, ⟨hi, hcl⟩, rfl, hc⟩
    | true =>
      refine Or.inr fun t ht => ?_
      obtain ⟨j, hj, hstate, hcost⟩ := (h.done i hi hcl).2 t ht
      exact ⟨j, hj, hstate, by omega⟩
  have hroot : P start 0 := ⟨0, h.nonempty, by rw [h.root], by rw [h.root]⟩
  rcases hw.frontier (stepCost algorithm) P F hstep 0 hroot with ⟨i, hi, hstate, hcost⟩ |
    ⟨front, back, m, rfl, _, hback, i, ho, hstate, hcost⟩
  · exact ⟨ts, [], g, i, (List.append_nil ts).symm, rfl, ⟨hi, hopen i hi hstate⟩, hstate, by omega⟩
  · exact ⟨front, back, m, i, rfl, hback, ho, hstate, by omega⟩

/-- So does a walk to a goal, since goals are never closed. -/
theorem Coherent.crosses (h : Coherent a algorithm start nodes) (ts : List Transition)
    (g : StateId) (hw : a.Walk start ts g) (hg : a.goal g = true) :
    ∃ front back m i, ts = front ++ back ∧ a.Walk m back g ∧ IsOpen nodes i ∧
      (nodeAt nodes i).state = m ∧ (nodeAt nodes i).cost ≤ cost (stepCost algorithm) front := by
  apply h.crosses_of_open ts g hw
  intro i hi hstate
  by_contra hcl
  have hno := (h.done i hi (by simpa using hcl)).1
  rw [hstate, hg] at hno
  cases hno

/-- A goal that is least in the frontier costs no more than any walk to a goal. -/
theorem Coherent.cost_le_walk (h : Coherent a algorithm start nodes) (hadm : a.Admissible)
    (halg : algorithm ≠ .greedyBestFirst) (i : ℕ) (hnext : IsNext nodes i)
    (hgoal : a.goal (nodeAt nodes i).state = true) (ts : List Transition) (g : StateId)
    (hw : a.Walk start ts g) (hg : a.goal g = true) :
    (nodeAt nodes i).cost ≤ cost (stepCost algorithm) ts := by
  by_contra hlt
  have hmax := h.bounded i hnext.1.1
  obtain ⟨front, back, m, j, rfl, hback, ho, hstate, hcost⟩ := h.crosses ts g hw hg
  have hscore := score_le hadm m g back hback hg halg
  rw [cost_append] at hlt
  -- the priorities of both nodes are at most their costs plus heuristics
  have hpj : (nodeAt nodes j).priority ≤
      cost (stepCost algorithm) front+cost (stepCost algorithm) back := by
    rw [h.priority j ho.1, h.heuristic j ho.1, hstate]
    exact priority_le _ _ _ (by omega) (by omega) halg
  have hpi : (nodeAt nodes i).priority = (nodeAt nodes i).cost := by
    have hzero := score_le hadm (nodeAt nodes i).state _ [] rfl hgoal halg
    rw [cost_nil, Nat.le_zero] at hzero
    rw [h.priority i hnext.1.1, h.heuristic i hnext.1.1, hzero]
    exact priority_goal _ halg
  have hle : (nodeAt nodes i).priority ≤ (nodeAt nodes j).priority := by
    have hkey := hnext.2 j ho.1 ho
    unfold nodeKey at hkey
    rcases Prod.Lex.toLex_le_toLex.mp hkey with hlt' | ⟨heq, _⟩
    · exact Nat.le_of_lt hlt'
    · exact Nat.le_of_eq heq
  omega

/-- All proper ancestors of the next node have been expanded, so no link of its chain is
stale. -/
theorem Coherent.fresh (h : Coherent a algorithm start nodes) (i : ℕ) (hnext : IsNext nodes i)
    (j : ℕ) (hj : j = i ∨ (forestOf nodes).Above j i) : Fresh algorithm a nodes j := by
  intro p hparent
  have hjl : j < nodes.length := by
    rcases hj with rfl | hj
    · exact hnext.1.1
    · exact h.above_lt hj hnext.1.1
  obtain ⟨t, hl⟩ := h.toSound.link_of_parent j p hjl hparent
  have hp : (forestOf nodes).Above p i := by
    rcases hj with rfl | hj
    · exact hl.above
    · exact Relation.TransGen.head hl.parent hj
  have hmin (g : ℕ) (hg : IsOpen nodes g) (hne : g ≠ i) :
      nodeKey (nodeAt nodes i) < nodeKey (nodeAt nodes g) := by
    refine lt_of_le_of_ne (hnext.2 g hg.1 hg) fun he => hne ?_
    have hseq := nodeKey_sequence _ _ he
    rw [h.sequence i hnext.1.1, h.sequence g hg.1] at hseq
    exact hseq.symm
  have hclosed : (nodeAt nodes p).closed = true := by
    have hno := h.forest.above_next hnext.1 hmin p hp
    by_contra hopen
    exact hno ⟨hl.bound, by simpa using hopen⟩
  exact ⟨t, hl, hl.exact_of_settled h.toSound hjl ((h.done p hl.bound hclosed).2 t hl.edge)⟩

/-- What a found path says, for all algorithms and heuristics. -/
theorem found_path (a : PureAdapter) (options : Options) (start : StateId) (fuel polls polls' : ℕ)
    (r : SearchResult)
    (h : Table.search fuel (some a.toAdapter) start options polls = some (r, polls'))
    (hf : r.status = .found) :
    ∃ nodes i ts, Coherent a options.algorithm start nodes ∧ IsNext nodes i ∧
      a.goal (nodeAt nodes i).state = true ∧ r.metrics.totalCost = (nodeAt nodes i).cost ∧
      a.Walk start ts (nodeAt nodes i).state ∧
      r.steps = ⟨start, 0⟩ :: ts.map Transition.step ∧
      cost (stepCost options.algorithm) ts = r.metrics.totalCost ∧
      (r.steps.map (·.state)).Nodup := by
  obtain ⟨nodes, i, steps, hco, hnext, hgoal, hpath, hsteps, htotal⟩ :=
    search_found a options start fuel polls polls' r h hf
  obtain ⟨ts, hwalk, rfl, _, hexact, _, _, hnodup⟩ := pathTo_walk hco.toSound
    hco.forest.toGrounded nodes.length i hnext.1.1 steps hpath
  refine ⟨nodes, i, ts, hco, hnext, hgoal, htotal, hwalk, hsteps, ?_, ?_⟩
  · rw [htotal]
    exact hexact fun j hj => hco.fresh i hnext j hj
  · rw [hsteps]
    exact hnodup

/-- A found path is a cheapest one by the weights of the algorithm. -/
theorem found_isLeast (a : PureAdapter) (hadm : a.Admissible) (options : Options)
    (halg : options.algorithm ≠ .greedyBestFirst) (start : StateId) (fuel polls polls' : ℕ)
    (r : SearchResult)
    (h : Table.search fuel (some a.toAdapter) start options polls = some (r, polls'))
    (hf : r.status = .found) :
    IsLeast (a.goalCosts (stepCost options.algorithm) start) r.metrics.totalCost := by
  obtain ⟨nodes, i, ts, hco, hnext, hgoal, htotal, hwalk, _, hcost, _⟩ :=
    found_path a options start fuel polls polls' r h hf
  refine ⟨⟨ts, _, hwalk, hgoal, hcost⟩, ?_⟩
  rintro n ⟨ts', g, hw, hg, rfl⟩
  rw [htotal]
  exact hco.cost_le_walk hadm halg i hnext hgoal ts' g hw hg

/-- What a search on a context returns, if it is no failure of memory, is what the search on
tables returns. -/
theorem search_of_context {σ : Type} (c : Context) (hc : LeftBehind c) (fuel : ℕ)
    (adapter : Option (Adapter σ)) (start : StateId) (options : Option Options) (world world' : σ)
    (r : SearchResult) (c' : Option Context)
    (h : atrinikPfSearch fuel (some c) adapter start options world = some (r, c', world'))
    (hr : r.status ≠ .outOfMemory) :
    Table.search fuel adapter start (options.getD atrinikPfOptionsInit) world =
      some (r, world') := by
  have ha : Allocated SearchResult.status
      (atrinikPfSearch fuel (some c) adapter start options world) := by
    rw [h]
    intro r' hr'
    rw [← Option.some.inj hr']
    exact hr
  rw [← outcome_search fuel c hc.shape adapter start options world ha, h]
  rfl

/-- The total cost of a path that was found is the least cost of any walk to a goal, for an
admissible heuristic that need not be consistent. -/
theorem search_found_optimal (a : PureAdapter) (hadm : a.Admissible) (c : Context)
    (hc : LeftBehind c) (fuel : ℕ) (start : StateId) (options : Option Options)
    (polls polls' : ℕ) (r : SearchResult) (c' : Option Context)
    (h : atrinikPfSearch fuel (some c) (some a.toAdapter) start options polls =
      some (r, c', polls'))
    (hf : r.status = .found) :
    ((options.getD atrinikPfOptionsInit).algorithm = .astar ∨
      (options.getD atrinikPfOptionsInit).algorithm = .dijkstra →
      IsLeast (a.goalCosts (fun t => t.cost.toNat) start) r.metrics.totalCost) ∧
    ((options.getD atrinikPfOptionsInit).algorithm = .breadthFirst →
      IsLeast { n | ∃ ts g, a.Walk start ts g ∧ a.goal g = true ∧ ts.length = n }
        r.metrics.totalCost) := by
  have htable := search_of_context c hc fuel _ start options polls polls' r c' h
    (by rw [hf]; decide)
  generalize options.getD atrinikPfOptionsInit = options at htable ⊢
  have hleast := fun halg => found_isLeast a hadm options halg start fuel polls polls' r htable hf
  constructor
  · rintro (halg | halg)
    all_goals
      have hweight : stepCost options.algorithm = fun t => t.cost.toNat := by
        funext t
        rw [stepCost, halg]
        rfl
      rw [← hweight]
      exact hleast (by rw [halg]; decide)
  · intro halg
    have hweight : stepCost options.algorithm = fun _ => 1 := by
      funext t
      rw [stepCost, halg]
      rfl
    have hcosts : a.goalCosts (stepCost options.algorithm) start =
        { n | ∃ ts g, a.Walk start ts g ∧ a.goal g = true ∧ ts.length = n } := by
      unfold PureAdapter.goalCosts
      rw [hweight]
      simp only [cost_one]
    rw [← hcosts]
    exact hleast (by rw [halg]; decide)

/-- Admissible on the detour graph, but not consistent: the step from 2 to 1 costs 1. -/
def steepHeuristic (state : StateId) : UInt64 := if state = 2 then 2 else 0

theorem detour_admissible : (detour (· = 4) steepHeuristic).Admissible := by
  intro heuristic hh s ts g hw hg
  obtain rfl : steepHeuristic = heuristic := Option.some.inj hh
  have hg' : g = 4 := by simpa [detour] using hg
  subst hg'
  unfold steepHeuristic
  split_ifs with h2
  · -- the only walk from 2 to 4 goes over 1
    subst h2
    rcases ts with _ | ⟨t, ts⟩
    · cases (show (2 : StateId) = 4 from hw)
    · obtain ⟨ht, hw⟩ := hw
      obtain rfl : t = ⟨1, 1, 21⟩ := by simpa [detour] using ht
      rcases ts with _ | ⟨t', ts⟩
      · cases (show (1 : StateId) = 4 from hw)
      · obtain ⟨ht', _⟩ := hw
        obtain rfl : t' = ⟨4, 1, 14⟩ := by simpa [detour] using ht'
        have hle : 2 ≤ 1+(1+cost (fun t : Transition => t.cost.toNat) ts) := by omega
        exact hle
  · exact Nat.zero_le _

theorem search_found_optimal_detour :
    IsLeast ((detour (· = 4) steepHeuristic).goalCosts (fun t => t.cost.toNat) 0) 3 :=
  (search_found_optimal (detour (· = 4) steepHeuristic) detour_admissible
    (atrinikPfContextCreate fun _ => true) (.created _) 9 0 none 0 _ _ _ rfl rfl).1 (Or.inl rfl)

theorem walk_getLast (u v : StateId) (ts : List Transition) (data : TransitionData)
    (h : a.Walk u ts v) :
    ∃ last, (⟨u, data⟩ :: ts.map Transition.step : List Step).getLast? = some last ∧
      last.state = v := by
  induction ts generalizing u data with
  | nil => exact ⟨⟨u, data⟩, rfl, h⟩
  | cons t ts ih =>
    obtain ⟨last, hlast, hstate⟩ := ih t.state t.data h.2
    refine ⟨last, ?_, hstate⟩
    rw [List.map_cons, List.getLast?_cons_cons]
    exact hlast

/-- The steps of a found path are those of a walk from the start to a goal, without a repeated
state, and the total cost is exactly what its transitions cost. The heuristic is arbitrary. -/
theorem search_found_path (a : PureAdapter) (c : Context) (hc : LeftBehind c) (fuel : ℕ)
    (start : StateId) (options : Option Options) (polls polls' : ℕ) (r : SearchResult)
    (c' : Option Context)
    (h : atrinikPfSearch fuel (some c) (some a.toAdapter) start options polls =
      some (r, c', polls'))
    (hf : r.status = .found) :
    ∃ ts last, r.steps = ⟨start, 0⟩ :: ts.map Transition.step ∧ r.steps.getLast? = some last ∧
      a.goal last.state = true ∧ a.Walk start ts last.state ∧ (r.steps.map (·.state)).Nodup ∧
      cost (stepCost (options.getD atrinikPfOptionsInit).algorithm) ts = r.metrics.totalCost := by
  have htable := search_of_context c hc fuel _ start options polls polls' r c' h
    (by rw [hf]; decide)
  obtain ⟨nodes, i, ts, _, _, hgoal, _, hwalk, hsteps, hcost, hnodup⟩ :=
    found_path a _ start fuel polls polls' r htable hf
  obtain ⟨last, hlast, hstate⟩ := walk_getLast start _ ts 0 hwalk
  refine ⟨ts, last, hsteps, by rw [hsteps, hlast], ?_, ?_, hnodup, hcost⟩
  · rw [hstate]
    exact hgoal
  · rw [hstate]
    exact hwalk

theorem search_found_path_detour :
    ∃ ts last, ([⟨0, 0⟩, ⟨2, 12⟩, ⟨1, 21⟩, ⟨4, 14⟩] : List Step) =
        ⟨0, 0⟩ :: ts.map Transition.step ∧
      ([⟨0, 0⟩, ⟨2, 12⟩, ⟨1, 21⟩, ⟨4, 14⟩] : List Step).getLast? = some last ∧
      (detour (· = 4) steepHeuristic).goal last.state = true ∧
      (detour (· = 4) steepHeuristic).Walk 0 ts last.state ∧
      (([⟨0, 0⟩, ⟨2, 12⟩, ⟨1, 21⟩, ⟨4, 14⟩] : List Step).map (·.state)).Nodup ∧
      cost (stepCost .astar) ts = 3 :=
  search_found_path (detour (· = 4) steepHeuristic) (atrinikPfContextCreate fun _ => true)
    (.created _) 9 0 none 0 _ _ _ rfl rfl

end LibAtrinik.Pathfinding

import LibAtrinik.LabelledWalk
import LibAtrinik.SearchForest
import LibAtrinik.PathfindingEmit
import LibAtrinik.PathfindingRelax

namespace LibAtrinik.Pathfinding

variable {a : PureAdapter} {algorithm : Algorithm} {start : StateId} {active : ℕ} {t : Transition}
  {nodes nodes' : List PfNode}

theorem nodeAt_append (nodes : List PfNode) (node : PfNode) (j : ℕ) :
    nodeAt (nodes ++ [node]) j = if j = nodes.length then node else nodeAt nodes j := by
  unfold nodeAt
  split_ifs with h
  · simp [h]
  · rcases Nat.lt_or_ge j nodes.length with hlt | hge
    · simp [List.getElem?_append_left hlt]
    · rw [List.getD_eq_default _ _ (by simp; omega), List.getD_eq_default _ _ hge]

theorem nodeAt_set (nodes : List PfNode) (node : PfNode) (i j : ℕ) (h : i < nodes.length) :
    nodeAt (nodes.set i node) j = if j = i then node else nodeAt nodes j := by
  unfold nodeAt
  split_ifs with hj
  · subst hj
    simp [h]
  · simp [Ne.symm hj]

/-- Node `i` has been reached from its parent by a transition of the adapter, and costs at
least what that transition gives it. -/
structure Linked (a : PureAdapter) (algorithm : Algorithm) (nodes : List PfNode) (i p : ℕ)
    (t : Transition) : Prop where
  parent : (nodeAt nodes i).parent = some p
  bound : p < nodes.length
  edge : t ∈ a.transitions (nodeAt nodes p).state
  state : t.state = (nodeAt nodes i).state
  data : t.data = (nodeAt nodes i).transitionData
  cost : (nodeAt nodes p).cost+stepCost algorithm t ≤ (nodeAt nodes i).cost

/-- The nodes describe states that have been reached from the start. -/
structure Sound (a : PureAdapter) (algorithm : Algorithm) (start : StateId) (nodes : List PfNode) :
    Prop where
  nonempty : 0 < nodes.length
  root : nodeAt nodes 0 = {
    state := start
    heuristic := a.score algorithm start
    priority := pfPriority algorithm 0 (a.score algorithm start)
    closed := (nodeAt nodes 0).closed }
  link : ∀ i < nodes.length, i ≠ 0 → ∃ p t, Linked a algorithm nodes i p t
  distinct : ∀ i < nodes.length, ∀ j < nodes.length,
    (nodeAt nodes i).state = (nodeAt nodes j).state → i = j
  sequence : ∀ i < nodes.length, (nodeAt nodes i).sequence = i
  heapIndex : ∀ i < nodes.length, (nodeAt nodes i).heapIndex = none
  heuristic : ∀ i < nodes.length,
    (nodeAt nodes i).heuristic = a.score algorithm (nodeAt nodes i).state
  priority : ∀ i < nodes.length, Prioritized algorithm (nodeAt nodes i)
  bounded : ∀ i < nodes.length, (nodeAt nodes i).cost ≤ uint64Max

/-- Node `k` has been written: it is new or cheaper than before. -/
structure Written (a : PureAdapter) (algorithm : Algorithm) (active : ℕ) (t : Transition)
    (nodes nodes' : List PfNode) (k : ℕ) : Prop where
  length : nodes'.length = max nodes.length (k+1)
  le : k ≤ nodes.length
  node : ∀ j, nodeAt nodes' j = if j = k then discovered a algorithm active t
    ((nodeAt nodes active).cost+stepCost algorithm t) k else nodeAt nodes j
  better : (k = nodes.length ∧ ∀ i < nodes.length, (nodeAt nodes i).state ≠ t.state) ∨
    (k < nodes.length ∧ (nodeAt nodes k).state = t.state ∧
      (nodeAt nodes active).cost+stepCost algorithm t < (nodeAt nodes k).cost)
  room : stepCost algorithm t ≤ uint64Max-(nodeAt nodes active).cost

/-- The state of the transition has a node that costs no more than the transition makes it. -/
def Settled (algorithm : Algorithm) (nodes : List PfNode) (i : ℕ) (t : Transition) : Prop :=
  ∃ j < nodes.length, (nodeAt nodes j).state = t.state ∧
    (nodeAt nodes j).cost ≤ (nodeAt nodes i).cost+stepCost algorithm t

/-- Relaxing a transition leaves the nodes as they are or writes one of them. -/
theorem Relax.written (h : Relax a algorithm active t nodes nodes')
    (hs : Sound a algorithm start nodes) :
    (nodes' = nodes ∧ Settled algorithm nodes active t) ∨
      ∃ k, Written a algorithm active t nodes nodes' k := by
  cases h with
  | kept i hfind hle hmax =>
    obtain ⟨hlt, hstate⟩ := findState_eq_some _ _ _ hfind
    exact Or.inl ⟨rfl, i, hlt, hstate, hle⟩
  | added hfind hmax =>
    right
    refine ⟨nodes.length, by simp, le_rfl, fun j => nodeAt_append _ _ j,
      Or.inl ⟨rfl, findState_eq_none _ _ hfind⟩, hmax⟩
  | lowered i hfind hlt hmax =>
    right
    obtain ⟨hi, hstate⟩ := findState_eq_some _ _ _ hfind
    -- all that an improvement keeps of the old node is what it would get as a new one
    have hnode : ((nodeAt nodes i).improved algorithm
        ((nodeAt nodes active).cost+stepCost algorithm t) t (some active)).reopened =
        discovered a algorithm active t ((nodeAt nodes active).cost+stepCost algorithm t) i := by
      unfold PfNode.improved PfNode.reopened discovered
      rw [hs.heuristic i hi, hs.sequence i hi, hs.heapIndex i hi, hstate]
    refine ⟨i, by simp; omega, by omega, fun j => ?_, Or.inr ⟨hi, hstate, hlt⟩, hmax⟩
    rw [hnode]
    exact nodeAt_set _ _ i j hi

theorem Written.lt_length {k : ℕ} (h : Written a algorithm active t nodes nodes' k) :
    k < nodes'.length := by
  rw [h.length]
  omega

theorem Written.length_le {k : ℕ} (h : Written a algorithm active t nodes nodes' k) :
    nodes.length ≤ nodes'.length := by
  rw [h.length]
  omega

theorem Written.old {k : ℕ} (h : Written a algorithm active t nodes nodes' k) {j : ℕ}
    (hj : j < nodes'.length) (hk : j ≠ k) : j < nodes.length := by
  have hle := h.le
  rw [h.length] at hj
  omega

/-- A node that has been written keeps its state. -/
theorem Written.state_eq {k : ℕ} (h : Written a algorithm active t nodes nodes' k) (j : ℕ)
    (hj : j < nodes.length) : (nodeAt nodes' j).state = (nodeAt nodes j).state := by
  rw [h.node]
  split_ifs with hjk
  · rcases h.better with ⟨hk, _⟩ | ⟨_, hst, _⟩
    · omega
    · rw [hjk]
      exact hst.symm
  · rfl

/-- Costs only fall. -/
theorem Written.cost_le {k : ℕ} (h : Written a algorithm active t nodes nodes' k) (j : ℕ)
    (hj : j < nodes.length) : (nodeAt nodes' j).cost ≤ (nodeAt nodes j).cost := by
  rw [h.node]
  split_ifs with hjk
  · rcases h.better with ⟨hk, _⟩ | ⟨_, _, hlt⟩
    · omega
    · rw [hjk]
      exact Nat.le_of_lt hlt
  · exact le_rfl

/-- The start node costs nothing and is therefore never written. -/
theorem Written.ne_zero {k : ℕ} (h : Written a algorithm active t nodes nodes' k)
    (hs : Sound a algorithm start nodes) : k ≠ 0 := by
  rintro rfl
  rcases h.better with ⟨hk, _⟩ | ⟨_, _, hlt⟩
  · have := hs.nonempty
    omega
  · rw [hs.root] at hlt
    exact absurd hlt (Nat.not_lt_zero _)

/-- The node being expanded is not written either. -/
theorem Written.ne_active {k : ℕ} (h : Written a algorithm active t nodes nodes' k)
    (ha : active < nodes.length) : k ≠ active := by
  rintro rfl
  rcases h.better with ⟨hk, _⟩ | ⟨_, _, hlt⟩ <;> omega

theorem Written.linked {k : ℕ} (h : Written a algorithm active t nodes nodes' k)
    (ha : active < nodes.length) (ht : t ∈ a.transitions (nodeAt nodes active).state) :
    Linked a algorithm nodes' k active t := by
  have hactive : nodeAt nodes' active = nodeAt nodes active := by
    rw [h.node, if_neg (h.ne_active ha).symm]
  refine ⟨?_, lt_of_lt_of_le ha h.length_le, by rwa [hactive], ?_, ?_, ?_⟩
  all_goals rw [h.node k, if_pos rfl]
  · rfl
  · rfl
  · rfl
  · rw [hactive]
    exact le_rfl

/-- The other links stay: the parent may only have become cheaper. -/
theorem Linked.written {k i p : ℕ} {t' : Transition} (hl : Linked a algorithm nodes i p t')
    (h : Written a algorithm active t nodes nodes' k) (hik : i ≠ k) :
    Linked a algorithm nodes' i p t' := by
  have hnode : nodeAt nodes' i = nodeAt nodes i := by rw [h.node, if_neg hik]
  refine ⟨?_, lt_of_lt_of_le hl.bound h.length_le, ?_, ?_, ?_, ?_⟩
  · rw [hnode]
    exact hl.parent
  · rw [h.state_eq p hl.bound]
    exact hl.edge
  · rw [hnode]
    exact hl.state
  · rw [hnode]
    exact hl.data
  · rw [hnode]
    exact (Nat.add_le_add_right (h.cost_le p hl.bound) _).trans hl.cost

theorem Written.sound {k : ℕ} (h : Written a algorithm active t nodes nodes' k)
    (hs : Sound a algorithm start nodes) (ha : active < nodes.length)
    (ht : t ∈ a.transitions (nodeAt nodes active).state) : Sound a algorithm start nodes' := by
  have hk0 := h.ne_zero hs
  have hka := h.ne_active ha
  have hle := h.length_le
  have hmax := hs.bounded active ha
  have hroom := h.room
  refine ⟨lt_of_lt_of_le hs.nonempty hle, ?_, ?_, ?_, ?_, ?_, ?_, ?_, ?_⟩
  · rw [h.node, if_neg hk0.symm]
    exact hs.root
  · intro i hi h0
    by_cases hik : i = k
    · rw [hik]
      exact ⟨active, t, h.linked ha ht⟩
    · obtain ⟨p, t', hl⟩ := hs.link i (h.old hi hik) h0
      exact ⟨p, t', hl.written h hik⟩
  · -- the state of the written node occurs nowhere else
    have hnew (j : ℕ) (hj : j < nodes'.length) (hjk : j ≠ k) :
        (nodeAt nodes' j).state ≠ t.state := by
      have hj' := h.old hj hjk
      rw [h.node, if_neg hjk]
      rcases h.better with ⟨_, habs⟩ | ⟨hlt, hst, _⟩
      · exact habs j hj'
      · rw [← hst]
        exact fun he => hjk (hs.distinct j hj' k hlt he)
    have hstate : (nodeAt nodes' k).state = t.state := by rw [h.node, if_pos rfl]; rfl
    intro i hi j hj he
    by_cases hik : i = k <;> by_cases hjk : j = k
    · rw [hik, hjk]
    · rw [hik, hstate] at he
      exact absurd he.symm (hnew j hj hjk)
    · rw [hjk, hstate] at he
      exact absurd he (hnew i hi hik)
    · rw [h.node, h.node, if_neg hik, if_neg hjk] at he
      exact hs.distinct i (h.old hi hik) j (h.old hj hjk) he
  all_goals
    intro i hi
    rw [h.node]
    split_ifs with hik
  · exact hik.symm
  · exact hs.sequence i (h.old hi hik)
  · rfl
  · exact hs.heapIndex i (h.old hi hik)
  · rfl
  · exact hs.heuristic i (h.old hi hik)
  · rfl
  · exact hs.priority i (h.old hi hik)
  · show (nodeAt nodes active).cost+stepCost algorithm t ≤ uint64Max
    omega
  · exact hs.bounded i (h.old hi hik)

end LibAtrinik.Pathfinding

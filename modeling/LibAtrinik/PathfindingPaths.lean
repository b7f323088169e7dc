import LibAtrinik.PathfindingRun

namespace LibAtrinik.Pathfinding

open SearchForest LabelledWalk

variable {a : PureAdapter} {algorithm : Algorithm} {start : StateId} {nodes : List PfNode}

/-- The transitions `ts` lead from state `u` to state `v`. -/
def PureAdapter.Walk (a : PureAdapter) (u : StateId) (ts : List Transition) (v : StateId) : Prop :=
  IsWalk a.transitions Transition.state u ts v

/-- The step that a path makes by a transition. -/
def Transition.step (t : Transition) : Step := ⟨t.state, t.data⟩

/-- The cost of node `i` is what its parent's present cost makes it. -/
def Fresh (algorithm : Algorithm) (a : PureAdapter) (nodes : List PfNode) (i : ℕ) : Prop :=
  ∀ p, (nodeAt nodes i).parent = some p → ∃ t, Linked a algorithm nodes i p t ∧
    (nodeAt nodes i).cost = (nodeAt nodes p).cost+stepCost algorithm t

/-- Node `i` costs more than its parent's present cost makes it. -/
def Stale (algorithm : Algorithm) (a : PureAdapter) (nodes : List PfNode) (i p : ℕ) : Prop :=
  ∃ t, Linked a algorithm nodes i p t ∧
    (nodeAt nodes p).cost+stepCost algorithm t < (nodeAt nodes i).cost

/-- The target and the data of a transition tell what it costs. -/
def PureAdapter.Labelled (a : PureAdapter) (algorithm : Algorithm) : Prop :=
  ∀ s, ∀ t ∈ a.transitions s, ∀ t' ∈ a.transitions s, t.state = t'.state → t.data = t'.data →
    stepCost algorithm t = stepCost algorithm t'

/-- Every node but the first has a link, an exact one if there is any. -/
theorem Sound.exists_link (hs : Sound a algorithm start nodes) (i : ℕ) (hi : i < nodes.length)
    (h0 : i ≠ 0) : ∃ p t, Linked a algorithm nodes i p t ∧ (Fresh algorithm a nodes i →
      (nodeAt nodes i).cost = (nodeAt nodes p).cost+stepCost algorithm t) := by
  obtain ⟨p, t, hl⟩ := hs.link i hi h0
  by_cases hf : Fresh algorithm a nodes i
  · obtain ⟨t', hl', he⟩ := hf p hl.parent
    exact ⟨p, t', hl', fun _ => he⟩
  · exact ⟨p, t, hl, fun h => absurd h hf⟩

theorem Linked.above {i p : ℕ} {t : Transition} (h : Linked a algorithm nodes i p t) :
    (forestOf nodes).Above p i := .single h.parent

theorem Sound.link_of_parent (hs : Sound a algorithm start nodes) (i p : ℕ) (hi : i < nodes.length)
    (hp : (nodeAt nodes i).parent = some p) : ∃ t, Linked a algorithm nodes i p t := by
  have h0 : i ≠ 0 := by
    rintro rfl
    rw [hs.root] at hp
    cases hp
  obtain ⟨q, t, hl⟩ := hs.link i hi h0
  obtain rfl : p = q := Option.some.inj (hp.symm.trans hl.parent)
  exact ⟨t, hl⟩

/-- A link whose transition has been relaxed with the parent's present cost is exact. -/
theorem Linked.exact_of_settled {i p : ℕ} {t : Transition} (hl : Linked a algorithm nodes i p t)
    (hs : Sound a algorithm start nodes) (hi : i < nodes.length)
    (h : Settled algorithm nodes p t) :
    (nodeAt nodes i).cost = (nodeAt nodes p).cost+stepCost algorithm t := by
  obtain ⟨k, hk, hstate, hcost⟩ := h
  obtain rfl := hs.distinct k hk i hi (hstate.trans hl.state)
  exact le_antisymm hcost hl.cost

theorem Sound.above_lt (hs : Sound a algorithm start nodes) {j i : ℕ}
    (h : (forestOf nodes).Above j i) (hi : i < nodes.length) : j < nodes.length := by
  have hstep (p g : ℕ) (hp : (nodeAt nodes g).parent = some p) (hg : g < nodes.length) :
      p < nodes.length := by
    obtain ⟨t, hl⟩ := hs.link_of_parent g p hg hp
    exact hl.bound
  induction h using Relation.TransGen.head_induction_on with
  | single hp => exact hstep _ _ hp hi
  | head hp _ ih => exact hstep _ _ hp ih

theorem Sound.not_above_root (hs : Sound a algorithm start nodes) (j : ℕ) :
    ¬(forestOf nodes).Above j 0 := by
  have hroot : (nodeAt nodes 0).parent = none := by rw [hs.root]
  exact (forestOf nodes).not_above_root hroot j

/-- The steps of a parent chain are those of a walk from the start. -/
theorem pathTo_walk (hs : Sound a algorithm start nodes) (hg : Grounded (forestOf nodes))
    (fuel i : ℕ) (hi : i < nodes.length) (steps : List Step)
    (h : pathTo nodes fuel (some i) = some steps) :
    ∃ ts, a.Walk start ts (nodeAt nodes i).state ∧
      steps = ⟨start, 0⟩ :: ts.map Transition.step ∧
      cost (stepCost algorithm) ts ≤ (nodeAt nodes i).cost ∧
      ((∀ j, j = i ∨ (forestOf nodes).Above j i → Fresh algorithm a nodes j) →
        cost (stepCost algorithm) ts = (nodeAt nodes i).cost) ∧
      (a.Labelled algorithm → (∃ j p, (j = i ∨ (forestOf nodes).Above j i) ∧
        Stale algorithm a nodes j p) → cost (stepCost algorithm) ts < (nodeAt nodes i).cost) ∧
      (∀ s ∈ steps, ∃ j, (j = i ∨ (forestOf nodes).Above j i) ∧
        s.state = (nodeAt nodes j).state) ∧
      (steps.map (·.state)).Nodup := by
  induction fuel generalizing i steps with
  | zero => cases h
  | succ fuel ih =>
    obtain ⟨init, hinit, rfl⟩ := Option.map_eq_some_iff.mp h
    by_cases h0 : i = 0
    · -- the chain ends at the start node
      subst h0
      rw [hs.root] at hinit
      have hnil : init = [] := by
        cases fuel <;> exact (Option.some.inj hinit).symm
      subst hnil
      rw [hs.root]
      have hroot : (nodeAt nodes 0).parent = none := by rw [hs.root]
      refine ⟨[], rfl, rfl, le_rfl, fun _ => rfl, ?_, ?_, by simp⟩
      · rintro _ ⟨j, p, rfl | hj, t, hl, _⟩
        · rw [hl.parent] at hroot
          cases hroot
        · exact absurd hj (hs.not_above_root j)
      intro s hmem
      refine ⟨0, Or.inl rfl, ?_⟩
      rw [List.nil_append, List.mem_singleton] at hmem
      rw [hmem, hs.root]
    · obtain ⟨p, t, hl, hfresh'⟩ := hs.exists_link i hi h0
      rw [hl.parent] at hinit
      obtain ⟨ts, hwalk, rfl, hcost, hexact, hstale, hfrom, hnodup⟩ := ih p hl.bound init hinit
      have hstep : (⟨(nodeAt nodes i).state, (nodeAt nodes i).transitionData⟩ : Step) = t.step := by
        rw [Transition.step, hl.state, hl.data]
      rw [hstep]
      have habove (j : ℕ) : (forestOf nodes).Above j i ↔ j = p ∨ (forestOf nodes).Above j p :=
        (forestOf nodes).above_iff hl.parent
      have hle := hl.cost
      refine ⟨ts ++ [t], ?_, ?_, ?_, ?_, ?_, ?_, ?_⟩
      · rw [← hl.state]
        exact IsWalk.snoc hwalk hl.edge
      · rw [List.map_append]
        rfl
      · rw [cost_append, cost_cons, cost_nil]
        omega
      · intro hfresh
        have hp := hexact fun j hj => hfresh j (Or.inr ((habove j).mpr hj))
        rw [cost_append, cost_cons, cost_nil, hp, hfresh' (hfresh i (Or.inl rfl))]
        omega
      · rintro hlab ⟨j, q, hj, t', hl', hlt⟩
        rw [cost_append, cost_cons, cost_nil]
        rcases hj with rfl | hj
        · obtain rfl : p = q := Option.some.inj (hl.parent.symm.trans hl'.parent)
          have heq := hlab _ t' hl'.edge t hl.edge (hl'.state.trans hl.state.symm)
            (hl'.data.trans hl.data.symm)
          omega
        · have hlt' := hstale hlab ⟨j, q, (habove j).mp hj, t', hl', hlt⟩
          omega
      · intro s hmem
        rcases List.mem_append.mp hmem with hmem | hmem
        · obtain ⟨j, hj, hst⟩ := hfrom s hmem
          exact ⟨j, Or.inr ((habove j).mpr hj), hst⟩
        · rw [List.mem_singleton.mp hmem]
          exact ⟨i, Or.inl rfl, hl.state⟩
      · rw [List.map_append, List.nodup_append]
        refine ⟨hnodup, by simp, ?_⟩
        -- a state met before would make node `i` its own ancestor
        intro s hmem s' hmem' he
        obtain ⟨step, hstep', rfl⟩ := List.mem_map.mp hmem
        obtain ⟨j, hj, hst⟩ := hfrom step hstep'
        simp only [List.map_cons, List.map_nil, List.mem_singleton] at hmem'
        have hji : (nodeAt nodes j).state = (nodeAt nodes i).state := by
          rw [← hst, he, hmem']
          exact hl.state
        have hjl := hs.above_lt ((habove j).mpr hj) hi
        rw [hs.distinct j hjl i hi hji] at hj
        exact hg.acyclic i ((habove i).mpr hj)

/-- Every parent chain ends, because it meets no node twice. -/
theorem pathTo_isSome (hs : Sound a algorithm start nodes) (hg : Grounded (forestOf nodes))
    (i : ℕ) (hi : i < nodes.length) : ∃ steps, pathTo nodes nodes.length (some i) = some steps := by
  have habove (j : ℕ) (hj : j = i ∨ (forestOf nodes).Above j i) :
      j ∈ Finset.range nodes.length := by
    rcases hj with rfl | hj
    · exact Finset.mem_range.mpr hi
    · exact Finset.mem_range.mpr (hs.above_lt hj hi)
  obtain ⟨chain, r, hhead, hlast, hr, hlinked, _, hlen, _⟩ := hg.exists_chain _ i habove
  rw [Finset.card_range] at hlen
  exact ⟨_, hhead ▸ pathTo_chain nodes chain r hlast hr hlinked nodes.length hlen⟩

/-- Every node stands for a state that can be reached. -/
theorem Coherent.reachable (h : Coherent a algorithm start nodes) (i : ℕ) (hi : i < nodes.length) :
    Reachable a.transitions Transition.state start (nodeAt nodes i).state := by
  obtain ⟨steps, hsteps⟩ := pathTo_isSome h.toSound h.forest.toGrounded i hi
  obtain ⟨ts, hwalk, _⟩ := pathTo_walk h.toSound h.forest.toGrounded _ i hi steps hsteps
  exact ⟨ts, hwalk⟩

end LibAtrinik.Pathfinding

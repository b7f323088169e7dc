import LibAtrinik.PathfindingInvariant

namespace LibAtrinik.Pathfinding

open SearchForest

variable {a : PureAdapter} {algorithm : Algorithm} {start : StateId} {active : ℕ} {t : Transition}
  {nodes nodes' : List PfNode}

/-- The parent pointers, costs and keys of the nodes. -/
def forestOf (nodes : List PfNode) : Forest ℕ (ℕ ×ₗ ℕ ×ₗ ℕ) where
  parent := fun i => (nodeAt nodes i).parent
  cost := fun i => (nodeAt nodes i).cost
  key := fun i => nodeKey (nodeAt nodes i)
  frontier := IsOpen nodes

/-- Writing a node attaches it to the node that is being expanded. -/
theorem Written.forestOf_eq {k : ℕ} (h : Written a algorithm active t nodes nodes' k) :
    forestOf nodes' = (forestOf nodes).attach k active
      ((nodeAt nodes active).cost+stepCost algorithm t)
      (nodeKey (discovered a algorithm active t
        ((nodeAt nodes active).cost+stepCost algorithm t) k)) := by
  unfold forestOf Forest.attach
  congr 1
  · funext j
    rw [Function.update_apply, h.node]
    split_ifs <;> rfl
  · funext j
    rw [Function.update_apply, h.node]
    split_ifs <;> rfl
  · funext j
    rw [Function.update_apply, h.node]
    split_ifs <;> rfl
  · funext j
    rw [Function.update_apply]
    unfold IsOpen
    rw [h.node]
    split_ifs with hj
    · rw [hj]
      exact propext ⟨fun _ => trivial, fun _ => ⟨h.lt_length, rfl⟩⟩
    · have hle := h.le
      rw [h.length]
      exact propext (and_congr_left fun _ => by omega)

/-- A written node is new or has become cheaper, and it does not move back in the order. -/
theorem Written.improves {k : ℕ} (h : Written a algorithm active t nodes nodes' k)
    (hs : Sound a algorithm start nodes) (ha : active < nodes.length) :
    (forestOf nodes).Improves k active ((nodeAt nodes active).cost+stepCost algorithm t)
      (nodeKey (discovered a algorithm active t
        ((nodeAt nodes active).cost+stepCost algorithm t) k)) := by
  rcases h.better with ⟨hk, _⟩ | ⟨hlt, hstate, hcost⟩
  · left
    refine ⟨fun g hg => ?_, h.ne_active ha⟩
    have hg' : (nodeAt nodes g).parent = some k := hg
    by_cases hlt : g < nodes.length
    · by_cases h0 : g = 0
      · rw [h0, hs.root] at hg'
        cases hg'
      · obtain ⟨p, t', hl⟩ := hs.link g hlt h0
        rw [hl.parent] at hg'
        have := hl.bound
        have := Option.some.inj hg'
        omega
    · rw [nodeAt, List.getD_eq_default _ _ (by omega)] at hg'
      cases hg'
  · right
    refine ⟨hcost, ?_⟩
    show nodeKey _ ≤ nodeKey (nodeAt nodes k)
    apply nodeKey_mono
    · rw [hs.priority k hlt, hs.heuristic k hlt, hstate]
      exact pfPriority_mono _ _ _ _ (Nat.le_of_lt hcost)
    · rw [hs.heuristic k hlt, hstate]
      rfl
    · exact (hs.sequence k hlt).symm

theorem nodeAt_closeAt (nodes : List PfNode) (i j : ℕ) (hi : i < nodes.length) :
    nodeAt (closeAt nodes i) j =
      if j = i then { nodeAt nodes i with closed := true } else nodeAt nodes j :=
  nodeAt_set _ _ i j hi

theorem closeAt_length (nodes : List PfNode) (i : ℕ) :
    (closeAt nodes i).length = nodes.length := List.length_set

theorem closeAt_state (nodes : List PfNode) (i j : ℕ) (hi : i < nodes.length) :
    (nodeAt (closeAt nodes i) j).state = (nodeAt nodes j).state := by
  rw [nodeAt_closeAt nodes i j hi]
  split_ifs with h
  · rw [h]
  · rfl

theorem closeAt_cost (nodes : List PfNode) (i j : ℕ) (hi : i < nodes.length) :
    (nodeAt (closeAt nodes i) j).cost = (nodeAt nodes j).cost := by
  rw [nodeAt_closeAt nodes i j hi]
  split_ifs with h
  · rw [h]
  · rfl

theorem forestOf_closeAt (i : ℕ) (hi : i < nodes.length) :
    forestOf (closeAt nodes i) = (forestOf nodes).close i := by
  unfold forestOf Forest.close
  congr 1
  · funext j
    rw [nodeAt_closeAt nodes i j hi]
    split_ifs with h
    · rw [h]
    · rfl
  · funext j
    exact closeAt_cost nodes i j hi
  · funext j
    rw [nodeAt_closeAt nodes i j hi]
    split_ifs with h
    · rw [h]
      rfl
    · rfl
  · funext j
    rw [Function.update_apply]
    unfold IsOpen
    rw [closeAt_length, nodeAt_closeAt nodes i j hi]
    split_ifs with h
    · simp
    · rfl

theorem Linked.closeAt {j p : ℕ} {t' : Transition} (hl : Linked a algorithm nodes j p t') (i : ℕ)
    (hi : i < nodes.length) : Linked a algorithm (closeAt nodes i) j p t' := by
  have hnode := nodeAt_closeAt nodes i j hi
  refine ⟨?_, by rw [closeAt_length]; exact hl.bound, ?_, ?_, ?_, ?_⟩
  · rw [hnode]
    split_ifs with h
    · rw [← h]
      exact hl.parent
    · exact hl.parent
  · rw [closeAt_state nodes i p hi]
    exact hl.edge
  · rw [closeAt_state nodes i j hi]
    exact hl.state
  · rw [hnode]
    split_ifs with h
    · rw [← h]
      exact hl.data
    · exact hl.data
  · rw [closeAt_cost nodes i p hi, closeAt_cost nodes i j hi]
    exact hl.cost

/-- Closing a node changes nothing but its flag. -/
theorem Sound.closeAt (hs : Sound a algorithm start nodes) (i : ℕ) (hi : i < nodes.length) :
    Sound a algorithm start (closeAt nodes i) := by
  have hnode (j : ℕ) := nodeAt_closeAt nodes i j hi
  have hlen := closeAt_length nodes i
  refine ⟨by rw [hlen]; exact hs.nonempty, ?_, ?_, ?_, ?_, ?_, ?_, ?_, ?_⟩
  · rw [hnode]
    have hroot := hs.root
    split_ifs with h
    · subst h
      rw [hroot]
    · exact hroot
  · intro j hj h0
    rw [hlen] at hj
    obtain ⟨p, t', hl⟩ := hs.link j hj h0
    exact ⟨p, t', hl.closeAt i hi⟩
  · intro j hj j' hj' he
    rw [hlen] at hj hj'
    rw [closeAt_state nodes i j hi, closeAt_state nodes i j' hi] at he
    exact hs.distinct j hj j' hj' he
  all_goals
    intro j hj
    rw [hlen] at hj
    rw [hnode]
    split_ifs with h
  · rw [h]
    exact hs.sequence i hi
  · exact hs.sequence j hj
  · exact hs.heapIndex i hi
  · exact hs.heapIndex j hj
  · exact hs.heuristic i hi
  · exact hs.heuristic j hj
  · exact hs.priority i hi
  · exact hs.priority j hj
  · exact hs.bounded i hi
  · exact hs.bounded j hj

/-- Node `i` is no goal, and its transitions have all been relaxed. -/
def Done (a : PureAdapter) (algorithm : Algorithm) (nodes : List PfNode) (i : ℕ) : Prop :=
  a.goal (nodeAt nodes i).state = false ∧
    ∀ t ∈ a.transitions (nodeAt nodes i).state, Settled algorithm nodes i t

/-- The invariant between two rounds. -/
structure Coherent (a : PureAdapter) (algorithm : Algorithm) (start : StateId)
    (nodes : List PfNode) : Prop extends Sound a algorithm start nodes where
  forest : Resting (forestOf nodes)
  done : ∀ i < nodes.length, (nodeAt nodes i).closed = true → Done a algorithm nodes i

/-- The invariant while node `c` is being expanded, after the transitions `ts`. -/
structure Midway (a : PureAdapter) (algorithm : Algorithm) (start : StateId)
    (nodes : List PfNode) (c : ℕ) (ts : List Transition) :
    Prop extends Sound a algorithm start nodes where
  bound : c < nodes.length
  forest : Expanding (forestOf nodes) c
  done : ∀ i < nodes.length, (nodeAt nodes i).closed = true → i ≠ c → Done a algorithm nodes i
  noGoal : a.goal (nodeAt nodes c).state = false
  settled : ∀ t ∈ ts, Settled algorithm nodes c t

theorem Settled.written {k i : ℕ} {t' : Transition} (hset : Settled algorithm nodes i t')
    (h : Written a algorithm active t nodes nodes' k)
    (hi : nodeAt nodes' i = nodeAt nodes i) : Settled algorithm nodes' i t' := by
  obtain ⟨j, hj, hstate, hcost⟩ := hset
  refine ⟨j, lt_of_lt_of_le hj h.length_le, ?_, ?_⟩
  · rw [h.state_eq j hj]
    exact hstate
  · rw [hi]
    exact (h.cost_le j hj).trans hcost

/-- The transition that has just been relaxed is settled. -/
theorem Written.settled {k : ℕ} (h : Written a algorithm active t nodes nodes' k)
    (ha : active < nodes.length) : Settled algorithm nodes' active t := by
  have hactive : nodeAt nodes' active = nodeAt nodes active := by
    rw [h.node, if_neg (h.ne_active ha).symm]
  refine ⟨k, h.lt_length, ?_, ?_⟩
  · rw [h.node, if_pos rfl]
    rfl
  · rw [hactive, h.node, if_pos rfl]
    exact le_rfl

/-- One transition of the node that is being expanded. -/
theorem Midway.relax {c : ℕ} {ts : List Transition} (h : Midway a algorithm start nodes c ts)
    (ht : t ∈ a.transitions (nodeAt nodes c).state) (hr : Relax a algorithm c t nodes nodes') :
    Midway a algorithm start nodes' c (ts ++ [t]) ∧
      (nodeAt nodes' c).state = (nodeAt nodes c).state := by
  have hs := h.toSound
  have hc := h.bound
  rcases hr.written hs with ⟨rfl, hset⟩ | ⟨k, hw⟩
  · refine ⟨{ h with settled := ?_ }, rfl⟩
    intro t' ht'
    rcases List.mem_append.mp ht' with ht' | ht'
    · exact h.settled t' ht'
    · rw [List.mem_singleton.mp ht']
      exact hset
  · have hactive : nodeAt nodes' c = nodeAt nodes c := by
      rw [hw.node, if_neg (hw.ne_active hc).symm]
    have hcost : (forestOf nodes).cost c ≤ (nodeAt nodes c).cost+stepCost algorithm t :=
      Nat.le_add_right _ _
    refine ⟨⟨hw.sound hs hc ht, lt_of_lt_of_le hc hw.length_le, ?_, ?_, ?_, ?_⟩, by rw [hactive]⟩
    · rw [hw.forestOf_eq]
      exact h.forest.attach (hw.improves hs hc) hcost
    · intro i hi hclosed hic
      -- the written node is open, so the closed ones are as they were
      have hik : i ≠ k := by
        rintro rfl
        rw [hw.node, if_pos rfl] at hclosed
        cases hclosed
      have hsame : nodeAt nodes' i = nodeAt nodes i := by rw [hw.node, if_neg hik]
      rw [hsame] at hclosed
      obtain ⟨hgoal, hset⟩ := h.done i (hw.old hi hik) hclosed hic
      unfold Done
      rw [hsame]
      exact ⟨hgoal, fun t' ht' => (hset t' ht').written hw hsame⟩
    · rw [hactive]
      exact h.noGoal
    · intro t' ht'
      rcases List.mem_append.mp ht' with ht' | ht'
      · exact (h.settled t' ht').written hw hactive
      · rw [List.mem_singleton.mp ht']
        exact hw.settled hc

theorem Midway.relaxAll {c : ℕ} {done ts : List Transition}
    (h : Midway a algorithm start nodes c done)
    (hts : ∀ t ∈ ts, t ∈ a.transitions (nodeAt nodes c).state)
    (hr : RelaxAll a algorithm c ts nodes nodes') :
    Midway a algorithm start nodes' c (done ++ ts) ∧
      (nodeAt nodes' c).state = (nodeAt nodes c).state := by
  induction hr generalizing done with
  | nil nodes => exact ⟨by rwa [List.append_nil], rfl⟩
  | cons t ts nodes mid nodes' hr _ ih =>
    obtain ⟨hmid, hstate⟩ := h.relax (hts t List.mem_cons_self) hr
    obtain ⟨hend, hstate'⟩ := ih hmid (fun t' ht' => by
      rw [hstate]
      exact hts t' (List.mem_cons_of_mem t ht'))
    rw [List.append_assoc] at hend
    exact ⟨hend, hstate'.trans hstate⟩

theorem Coherent.close {i : ℕ} (h : Coherent a algorithm start nodes) (hnext : IsNext nodes i)
    (hgoal : a.goal (nodeAt nodes i).state = false) :
    Midway a algorithm start (closeAt nodes i) i [] := by
  have hi := hnext.1.1
  refine ⟨h.toSound.closeAt i hi, by rw [closeAt_length]; exact hi, ?_, ?_, ?_, ?_⟩
  · rw [forestOf_closeAt i hi]
    refine h.forest.close hnext.1 ?_
    intro g hg hne
    have hle := hnext.2 g hg.1 hg
    refine lt_of_le_of_ne hle ?_
    -- keys differ in the sequence number at least
    intro he
    have hseq := nodeKey_sequence _ _ he
    rw [h.sequence i hi, h.sequence g hg.1] at hseq
    exact hne hseq.symm
  · intro j hj hclosed hji
    rw [closeAt_length] at hj
    rw [nodeAt_closeAt nodes i j hi, if_neg hji] at hclosed
    obtain ⟨hg, hset⟩ := h.done j hj hclosed
    unfold Done
    rw [closeAt_state nodes i j hi]
    refine ⟨hg, fun t' ht' => ?_⟩
    obtain ⟨k, hk, hstate, hcost⟩ := hset t' ht'
    refine ⟨k, by rwa [closeAt_length], ?_, ?_⟩
    · rw [closeAt_state nodes i k hi]
      exact hstate
    · rw [closeAt_cost nodes i k hi, closeAt_cost nodes i j hi]
      exact hcost
  · rw [closeAt_state nodes i i hi]
    exact hgoal
  · intro t' ht'
    cases ht'

theorem Midway.coherent {c : ℕ}
    (h : Midway a algorithm start nodes c (a.transitions (nodeAt nodes c).state)) :
    Coherent a algorithm start nodes := by
  refine ⟨h.toSound, h.forest.toResting, ?_⟩
  intro i hi hclosed
  by_cases hic : i = c
  · rw [hic]
    exact ⟨h.noGoal, h.settled⟩
  · exact h.done i hi hclosed hic

/-- A round preserves the invariant. -/
theorem Coherent.expands {i : ℕ} (h : Coherent a algorithm start nodes)
    (hexp : Expands a algorithm i nodes nodes') : Coherent a algorithm start nodes' := by
  have hmid := h.close hexp.next hexp.noGoal
  have hstate := closeAt_state nodes i i hexp.next.1.1
  obtain ⟨hend, hstate'⟩ := hmid.relaxAll (fun t ht => by rwa [hstate]) hexp.relaxed
  rw [List.nil_append, ← hstate, ← hstate'] at hend
  exact hend.coherent

/-- What is left of the invariant when an expansion has been cut short. -/
theorem Coherent.interrupted {cut : Option (ℕ × List Transition)}
    (h : Coherent a algorithm start nodes) (hcut : Interrupted a algorithm nodes nodes' cut) :
    Sound a algorithm start nodes' ∧ Grounded (forestOf nodes') := by
  cases hcut with
  | before => exact ⟨h.toSound, h.forest.toGrounded⟩
  | during i _ hnext hgoal done rest htrans hrelax =>
    have hstate := closeAt_state nodes i i hnext.1.1
    obtain ⟨hend, _⟩ := (h.close hnext hgoal).relaxAll (fun t ht => by
      rw [hstate, htrans]
      exact List.mem_append_left rest ht) hrelax
    exact ⟨hend.toSound, hend.forest.toGrounded⟩

theorem start_nodes (a : PureAdapter) (options : Options) (polls : ℕ) (start : StateId) :
    (Table.start a.toAdapter options polls start).1.nodes = [{
        state := start
        heuristic := a.score options.algorithm start
        priority := pfPriority options.algorithm 0 (a.score options.algorithm start) }] ∧
      (Table.start a.toAdapter options polls start).1.stop = none ∧
      BestBelow (Table.start a.toAdapter options polls start).1 := by
  unfold Table.start
  rw [scoreState_toAdapter]
  dsimp only
  let table : Table := {
    nodes := [{
      state := start
      heuristic := a.score options.algorithm start
      priority := pfPriority options.algorithm 0 (a.score options.algorithm start) }]
    metrics := { generated := 1, peakFrontier := 1 } }
  obtain ⟨hn, hs, _⟩ := considerPartial_nodes table a.toAdapter options polls 0
  have hb : BestBelow table := fun i hi => by cases hi
  exact ⟨hn, hs, hb.considerPartial a.toAdapter options polls 0 Nat.zero_lt_one⟩

/-- A single node that is not closed. -/
theorem coherent_singleton (a : PureAdapter) (algorithm : Algorithm) (start : StateId) :
    Coherent a algorithm start [{
      state := start
      heuristic := a.score algorithm start
      priority := pfPriority algorithm 0 (a.score algorithm start) }] := by
  have hzero (i : ℕ) (hi : i < 1) : i = 0 := by omega
  have hparent (i : ℕ) : (nodeAt [({
      state := start
      heuristic := a.score algorithm start
      priority := pfPriority algorithm 0 (a.score algorithm start) } : PfNode)] i).parent =
      none := by
    rcases i with _ | i <;> rfl
  have habove (i j : ℕ) : ¬(forestOf [({
      state := start
      heuristic := a.score algorithm start
      priority := pfPriority algorithm 0 (a.score algorithm start) } : PfNode)]).Above i j :=
    Forest.not_above_of_childless _ i j fun g hg => by
      rw [show (forestOf _).parent g = none from hparent g] at hg
      cases hg
  refine ⟨⟨Nat.zero_lt_one, rfl, ?_, ?_, ?_, ?_, ?_, ?_, ?_⟩, ⟨⟨?_, ?_⟩, ?_, ?_⟩, ?_⟩
  · exact fun i hi h0 => absurd (hzero i hi) h0
  · exact fun i hi j hj _ => (hzero i hi).trans (hzero j hj).symm
  · intro i hi
    rw [hzero i hi]
    rfl
  · intro i hi
    rw [hzero i hi]
    rfl
  · intro i hi
    rw [hzero i hi]
    rfl
  · intro i hi
    rw [hzero i hi]
    rfl
  · intro i hi
    rw [hzero i hi]
    exact Nat.zero_le _
  · exact fun i => habove i i
  · intro g p hp
    rw [show (forestOf _).parent g = none from hparent g] at hp
    cases hp
  · exact fun i j hij => absurd hij (habove i j)
  · exact fun i j hij => absurd hij (habove i j)
  · intro i hi hc
    rw [hzero i hi] at hc
    cases hc

/-- Every round starts from nodes that satisfy the invariant, and so does the last one. The
same holds of any further property `J` that a round preserves. -/
theorem finishCall_last (a : PureAdapter) (options : Options) (start : StateId) (fuel polls : ℕ)
    (call : FinishCall) (h : a.finishCall options start fuel polls = some call)
    (J : List PfNode → Prop)
    (hstart : J (Table.start a.toAdapter options polls start).1.nodes)
    (hJ : ∀ nodes nodes' i, Coherent a options.algorithm start nodes → J nodes →
      Expands a options.algorithm i nodes nodes' → J nodes') :
    ∃ table, Coherent a options.algorithm start table.nodes ∧ J table.nodes ∧ BestBelow table ∧
      RoundResult a options table (.inr call) := by
  obtain ⟨hnodes, hstop, hbest⟩ := start_nodes a options polls start
  obtain ⟨⟨table, polls''⟩, ⟨hco, hj, hst, hb⟩, hlast⟩ := FuelLoop.run_invariant
    (a.searchRound options)
    (fun s => Coherent a options.algorithm start s.1.nodes ∧ J s.1.nodes ∧ s.1.stop = none ∧
      BestBelow s.1)
    (by
      rintro ⟨table, polls⟩ next ⟨hco, hj, hst, hb⟩ hnext
      have hround := searchRound_result a options table polls hst hb
      rw [hnext] at hround
      cases hround with
      | continues i next polls hexp hstop hbest =>
        exact ⟨hco.expands hexp, hJ _ _ i hco hj hexp, hstop, hbest⟩)
    fuel _ _ ⟨by rw [hnodes]; exact coherent_singleton a options.algorithm start, hstart, hstop,
      hbest⟩ h
  have hround := searchRound_result a options table polls'' hst hb
  rw [hlast] at hround
  exact ⟨table, hco, hj, hb, hround⟩

/-- Where a search with a pure adapter is left: an invalid call, or the last round from nodes
that satisfy the invariant. -/
theorem search_last (a : PureAdapter) (options : Options) (start : StateId) (fuel polls polls' : ℕ)
    (r : SearchResult)
    (h : Table.search fuel (some a.toAdapter) start options polls = some (r, polls')) :
    (pfValidInput a.toAdapter options = false ∧ r.status = .invalidInput) ∨
    (pfValidInput a.toAdapter options = true ∧ ∃ table call,
      a.finishCall options start fuel polls = some call ∧
      Coherent a options.algorithm start table.nodes ∧ BestBelow table ∧
      RoundResult a options table (.inr call) ∧ call.finish options = some (r, polls')) := by
  rw [search_toAdapter] at h
  by_cases hv : pfValidInput a.toAdapter options = true
  · right
    rw [if_pos hv] at h
    obtain ⟨call, hcall, hfinish⟩ := Option.bind_eq_some_iff.mp h
    obtain ⟨table, hco, _, hb, hround⟩ := finishCall_last a options start fuel polls call hcall
      (fun _ => True) trivial (fun _ _ _ _ _ _ => trivial)
    exact ⟨hv, table, call, hcall, hco, hb, hround, hfinish⟩
  · left
    rw [if_neg hv] at h
    obtain ⟨rfl, rfl⟩ := Prod.mk.inj (Option.some.inj h)
    exact ⟨by simpa using hv, rfl⟩

/-- The end of a search without a goal: the plain result, or a partial path. -/
theorem finish_none_cases (table : Table) (options : Options) (status : Status)
    (termination : Termination) (r : SearchResult)
    (h : table.finish options status termination none = some r) :
    r = { status := status, termination := termination, metrics := table.metrics } ∨
    ∃ best, table.partialNode = some best ∧ options.returnPartial = true ∧
      (termination = .exhausted ∨ termination = .limit ∨ termination = .cancelled) ∧
      table.finishPath { status := .partialPath, termination := termination,
                         metrics := table.metrics } best = some r := by
  unfold Table.finish at h
  dsimp only at h
  cases hb : table.partialNode with
  | none =>
    rw [hb] at h
    exact Or.inl (Option.some.inj h).symm
  | some best =>
    rw [hb] at h
    dsimp only at h
    split_ifs at h with hp
    · exact Or.inr ⟨best, rfl, hp.1, hp.2, h⟩
    · exact Or.inl (Option.some.inj h).symm

theorem finishPath_eq_some (table : Table) (result r : SearchResult) (i : ℕ)
    (h : table.finishPath result i = some r) :
    ∃ steps, pathTo table.nodes table.nodes.length (some i) = some steps ∧
      r = { result with
        steps := clearFirst steps
        metrics := { result.metrics with totalCost := (nodeAt table.nodes i).cost } } := by
  obtain ⟨steps, hsteps, rfl⟩ := Option.map_eq_some_iff.mp h
  exact ⟨steps, hsteps, rfl⟩

/-- A search finds a path only by taking a goal from the frontier. -/
theorem search_found (a : PureAdapter) (options : Options) (start : StateId) (fuel polls polls' : ℕ)
    (r : SearchResult)
    (h : Table.search fuel (some a.toAdapter) start options polls = some (r, polls'))
    (hf : r.status = .found) :
    ∃ nodes i steps, Coherent a options.algorithm start nodes ∧ IsNext nodes i ∧
      a.goal (nodeAt nodes i).state = true ∧ pathTo nodes nodes.length (some i) = some steps ∧
      r.steps = clearFirst steps ∧ r.metrics.totalCost = (nodeAt nodes i).cost := by
  rcases search_last a options start fuel polls polls' r h with ⟨_, hinv⟩ |
    ⟨_, table, call, _, hco, hb, hround, hout⟩
  · rw [hf] at hinv
    cases hinv
  · -- a status other than `found` contradicts the assumption
    have hother (last : Table) (status : Status) (termination : Termination) (polls : ℕ)
        (hne : status ≠ .found)
        (hr : (last.finish options status termination none).map (·, polls) = some (r, polls')) :
        False := by
      obtain ⟨r', hr', heq⟩ := Option.map_eq_some_iff.mp hr
      obtain rfl : r' = r := congrArg Prod.fst heq
      rcases finish_none_cases last options status termination r' hr' with rfl | ⟨best, _, _, _, hp⟩
      · exact hne hf
      · obtain ⟨steps, _, rfl⟩ := finishPath_eq_some _ _ _ _ hp
        cases hf
    cases hround with
    | found i polls hnext hgoal =>
      obtain ⟨r', hr', heq⟩ := Option.map_eq_some_iff.mp hout
      obtain rfl : r' = r := congrArg Prod.fst heq
      obtain ⟨steps, hsteps, rfl⟩ := finishPath_eq_some _ _ _ _ hr'
      exact ⟨table.nodes, i, steps, hco, hnext, hgoal, hsteps, rfl, rfl⟩
    | exhausted polls hnone =>
      exact (hother table .noPath .exhausted polls (by decide) hout).elim
    | halted last cut polls status termination hreason hbest hcut =>
      refine (hother last status termination polls ?_ hout).elim
      cases hreason <;> decide

end LibAtrinik.Pathfinding

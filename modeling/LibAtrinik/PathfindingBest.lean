import LibAtrinik.PathfindingMoments
import LibAtrinik.PathfindingPartial

namespace LibAtrinik.Pathfinding

variable {σ : Type} {rank : StateId → ℕ} {table : Table} {adapter : Adapter σ} {options : Options}

/-- The order in which nodes are preferred as the end of a partial path. -/
def partialKey (rank : StateId → ℕ) (node : PfNode) : ℕ ×ₗ ℕ ×ₗ ℕ :=
  toLex (rank node.state, toLex (node.cost, node.sequence))

theorem betterPartial_iff (rank : StateId → ℕ) (a b : PfNode) :
    betterPartial (rank a.state) a (rank b.state) b = true ↔
      partialKey rank a < partialKey rank b := by
  unfold betterPartial partialKey
  rw [Prod.Lex.toLex_lt_toLex, Prod.Lex.toLex_lt_toLex]
  simp only [decide_eq_true_eq]
  constructor
  · rintro (h | ⟨h, h'⟩ | ⟨h, h', h''⟩)
    · exact Or.inl h
    · exact Or.inr ⟨h, Or.inl h'⟩
    · exact Or.inr ⟨h, Or.inr ⟨h', h''⟩⟩
  · rintro (h | ⟨h, h' | ⟨h', h''⟩⟩)
    · exact Or.inl h
    · exact Or.inr (Or.inl ⟨h, h'⟩)
    · exact Or.inr (Or.inr ⟨h, h', h''⟩)

/-- The stored node is no worse than any node but `i`, and its rank is stored with it. -/
def BestExcept (rank : StateId → ℕ) (table : Table) (i : Option ℕ) : Prop :=
  ∃ best, table.partialNode = some best ∧ best < table.nodes.length ∧
    table.partialRank = rank (nodeAt table.nodes best).state ∧
    ∀ j < table.nodes.length, some j ≠ i →
      partialKey rank (nodeAt table.nodes best) ≤ partialKey rank (nodeAt table.nodes j)

/-- The invariant of a search that may return a partial path. -/
structure Ranked (options : Options) (rank : StateId → ℕ) (table : Table) : Prop where
  best : options.returnPartial = true → BestExcept rank table none
  stop : ∀ termination, table.stop ≠ some (.partialPath, termination)

/-- The ranks are those of a function of the state. -/
def RankedBy (adapter : Adapter σ) (rank : StateId → ℕ) : Prop :=
  ∀ world state, (rankState adapter world state).1 = rank state

theorem Ranked.stopWith (h : Ranked options rank table) (status : Status) (termination : Termination)
    (hs : status ≠ .partialPath) : Ranked options rank (table.stopWith status termination) := by
  refine ⟨h.best, fun t ht => hs ?_⟩
  exact congrArg Prod.fst (Option.some.inj ht)

/-- Comparing node `i` closes the gap. -/
theorem BestExcept.considerPartial (hr : RankedBy adapter rank) (hp : options.returnPartial = true)
    (world : σ) (i : ℕ) (hi : i < table.nodes.length) (h : BestExcept rank table (some i)) :
    BestExcept rank (table.considerPartial adapter options world i).1 none := by
  obtain ⟨best, hbest, hlt, hrank, hleast⟩ := h
  unfold Table.considerPartial
  simp only [if_pos hp, hbest, hr world, hrank]
  by_cases hb : betterPartial (rank (nodeAt table.nodes i).state) (nodeAt table.nodes i)
      (rank (nodeAt table.nodes best).state) (nodeAt table.nodes best) = true
  · rw [if_pos hb]
    have hless := (betterPartial_iff _ _ _).mp hb
    refine ⟨i, rfl, hi, rfl, fun j hj _ => ?_⟩
    by_cases hji : j = i
    · rw [hji]
    · exact hless.le.trans (hleast j hj fun he => hji (Option.some.inj he))
  · rw [if_neg hb]
    have hle := not_lt.mp fun hless => hb ((betterPartial_iff rank _ _).mpr hless)
    refine ⟨best, hbest, hlt, hrank, fun j hj _ => ?_⟩
    by_cases hji : j = i
    · rw [hji]
      exact hle
    · exact hleast j hj fun he => hji (Option.some.inj he)

/-- Only the states, the costs and the order of the nodes matter. -/
theorem BestExcept.set {except : Option ℕ} (h : BestExcept rank table except) (i : ℕ)
    (hi : i < table.nodes.length) (node : PfNode)
    (hs : node.state = (nodeAt table.nodes i).state)
    (hk : except ≠ some i → partialKey rank node = partialKey rank (nodeAt table.nodes i))
    (hle : partialKey rank node ≤ partialKey rank (nodeAt table.nodes i)) :
    BestExcept rank { table with nodes := table.nodes.set i node } except := by
  obtain ⟨best, hbest, hlt, hrank, hleast⟩ := h
  have hnode (j : ℕ) := nodeAt_set table.nodes node i j hi
  refine ⟨best, hbest, by rwa [List.length_set], ?_, ?_⟩
  · show table.partialRank = _
    rw [hnode, hrank]
    split_ifs with hbi
    · rw [hs, hbi]
    · rfl
  · intro j hj hne
    rw [List.length_set] at hj
    have hold := hleast j hj hne
    rw [hnode, hnode]
    split_ifs with hbi hji hji
    · exact le_rfl
    · rw [hbi] at hold
      exact hle.trans hold
    · -- the node that is overwritten is not the exception
      rw [hk (by rw [← hji]; exact fun he => hne he.symm), ← hji]
      exact hold
    · exact hold

theorem emitNew_ranked (hr : RankedBy adapter rank) (h : Ranked options rank table) (active : ℕ)
    (world : σ) (t : Transition) (cost : ℕ) :
    Ranked options rank (table.emitNew adapter options active world t cost).2.1 := by
  unfold Table.emitNew
  by_cases hgen : spent options.maxGenerated table.metrics.generated = true
  · rw [if_pos hgen]
    exact h.stopWith _ _ (by decide)
  by_cases hfull : spent options.maxFrontier (openCount table.nodes) = true
  · rw [if_neg hgen, if_pos hfull]
    exact h.stopWith _ _ (by decide)
  rw [if_neg hgen, if_neg hfull]
  dsimp only
  generalize scoreState adapter options.algorithm world t.state = score
  let candidate : PfNode := {
    state := t.state, cost := cost, heuristic := score.1
    priority := pfPriority options.algorithm cost score.1
    transitionData := t.data, parent := some active, sequence := table.nodes.length }
  let grown : Table := { table with
    nodes := table.nodes ++ [candidate]
    metrics := { table.metrics with generated := table.metrics.generated+1 } }
  have hold (j : ℕ) (hj : j < table.nodes.length) :
      nodeAt grown.nodes j = nodeAt table.nodes j :=
    (nodeAt_append _ _ _).trans (if_neg (Nat.ne_of_lt hj))
  have hgrown (hp : options.returnPartial = true) :
      BestExcept rank grown (some table.nodes.length) := by
    obtain ⟨best, hbest, hlt, hrank, hleast⟩ := h.best hp
    refine ⟨best, hbest, ?_, ?_, ?_⟩
    · simp only [grown, List.length_append, List.length_singleton]
      exact Nat.lt_succ_of_lt hlt
    · rw [hold best hlt]
      exact hrank
    · intro j hj hne
      simp only [grown, List.length_append, List.length_singleton] at hj
      have hj' : j < table.nodes.length := by
        have : j ≠ table.nodes.length := fun he => hne (congrArg some he)
        omega
      rw [hold best hlt, hold j hj']
      exact hleast j hj' (by simp)
  have hlen : table.nodes.length < grown.nodes.length := by simp [grown]
  obtain ⟨_, hstop, _⟩ := considerPartial_nodes grown adapter options score.2 table.nodes.length
  exact ⟨fun hp => (hgrown hp).considerPartial hr hp score.2 _ hlen,
    fun termination ht => h.stop termination (hstop.symm.trans ht)⟩

theorem emitImproved_ranked (hr : RankedBy adapter rank) (h : Ranked options rank table) (active : ℕ)
    (world : σ) (t : Transition) (cost i : ℕ)
    (hi : i < table.nodes.length) (hlt : cost < (nodeAt table.nodes i).cost) :
    Ranked options rank (table.emitImproved adapter options active world t cost i).2.1 := by
  unfold Table.emitImproved
  dsimp only
  by_cases hfull : ((nodeAt table.nodes i).closed &&
      spent options.maxFrontier (openCount table.nodes)) = true
  · rw [if_pos hfull]
    exact h.stopWith _ _ (by decide)
  rw [if_neg hfull]
  let improved := (nodeAt table.nodes i).improved options.algorithm cost t (some active)
  let updated : Table := { table with nodes := table.nodes.set i improved }
  -- the stored node may be the one whose cost falls
  have hless : partialKey rank improved ≤ partialKey rank (nodeAt table.nodes i) := by
    refine le_of_lt (Prod.Lex.toLex_lt_toLex.mpr (Or.inr ⟨rfl, ?_⟩))
    exact Prod.Lex.toLex_lt_toLex.mpr (Or.inl hlt)
  have hupdated (hp : options.returnPartial = true) : BestExcept rank updated (some i) := by
    obtain ⟨best, hbest, hblt, hrank, hleast⟩ := h.best hp
    have hexcept : BestExcept rank table (some i) :=
      ⟨best, hbest, hblt, hrank, fun j hj _ => hleast j hj (by simp)⟩
    exact hexcept.set i hi improved rfl (fun he => absurd rfl he) hless
  have hi' : i < updated.nodes.length := by simpa [updated] using hi
  obtain ⟨hnodes, hstop, _⟩ := considerPartial_nodes updated adapter options world i
  have hbest (hp : options.returnPartial = true) :=
    (hupdated hp).considerPartial hr hp world i hi'
  have hstop' (termination : Termination) :
      (updated.considerPartial adapter options world i).1.stop ≠ some (.partialPath, termination) :=
    fun ht => h.stop termination (hstop.symm.trans ht)
  split_ifs
  · refine ⟨?_, hstop'⟩
    have hnode : nodeAt (updated.considerPartial adapter options world i).1.nodes i = improved := by
      rw [hnodes]
      exact (nodeAt_set _ _ _ _ hi).trans (if_pos rfl)
    have hlen : i < (updated.considerPartial adapter options world i).1.nodes.length := by
      rw [hnodes]
      exact hi'
    exact fun hp => (hbest hp).set i hlen improved.reopened (by rw [hnode]; rfl)
      (fun _ => by rw [hnode]; rfl) (le_of_eq (by rw [hnode]; rfl))
  · exact ⟨hbest, hstop'⟩

theorem emitSearch_ranked (hr : RankedBy adapter rank) (h : Ranked options rank table) (active : ℕ)
    (world : σ) (t : Transition) :
    Ranked options rank (table.emitSearch adapter options active world t).2.1 := by
  unfold Table.emitSearch
  dsimp only
  split_ifs with hover
  · exact h.stopWith _ _ (by decide)
  · cases hf : findState table.nodes t.state with
    | none => exact emitNew_ranked hr h active world t _
    | some i =>
      dsimp only
      split_ifs with hge
      · exact h
      · exact emitImproved_ranked hr h active world t _ i (findState_eq_some _ _ _ hf).1
          (by omega)

/-- An emission keeps the invariant, whatever it comes to. -/
theorem searchEmit_ranked (hr : RankedBy adapter rank) (h : Ranked options rank table) (active : ℕ)
    (world : σ) (t : Option Transition) :
    Ranked options rank (Table.searchEmit adapter options active table world t).2.1 := by
  unfold Table.searchEmit Table.emitGuarded
  by_cases hs : table.stop.isSome = true
  · rw [if_pos hs]
    exact h
  · rw [if_neg hs]
    cases t with
    | none => exact h.stopWith _ _ (by decide)
    | some t =>
      dsimp only
      split_ifs
      · exact h.stopWith _ _ (by decide)
      · exact h.stopWith _ _ (by decide)
      · have hcounted : Ranked options rank table.countExamined := ⟨h.best, h.stop⟩
        exact emitSearch_ranked hr hcounted active _ t

theorem Ranked.close (h : Ranked options rank table) (i : ℕ) (hi : i < table.nodes.length) :
    Ranked options rank (table.close i) :=
  ⟨fun hp => (h.best hp).set i hi { nodeAt table.nodes i with closed := true } rfl (fun _ => rfl)
    le_rfl, h.stop⟩

theorem covers_ranked (hr : RankedBy adapter rank) :
    CoversSearch adapter options
      (fun t t' => Ranked options rank t → Ranked options rank t') where
  refl _ h := h
  emit i _ world t h := searchEmit_ranked hr h i world t
  fail _ h := h.stopWith _ _ (by decide)
  close _ i hi h := h.close i hi
  total _ _ h := ⟨h.best, h.stop⟩

theorem start_ranked (hr : RankedBy adapter rank) (world : σ) (start : StateId) :
    Ranked options rank (Table.start adapter options world start).1 := by
  constructor
  · intro hp
    unfold Table.start Table.considerPartial
    simp only [if_pos hp]
    refine ⟨0, rfl, Nat.zero_lt_one, hr _ _, fun j hj _ => ?_⟩
    obtain rfl : j = 0 := Nat.lt_one_iff.mp hj
    exact le_rfl
  · intro termination ht
    unfold Table.start at ht
    dsimp only at ht
    rw [(considerPartial_nodes _ _ _ _ _).2.1] at ht
    cases ht

/-- The rank of a state as the end of a partial path. -/
def PureAdapter.rankOf (a : PureAdapter) (state : StateId) : ℕ :=
  (a.partialRank.map fun rank => (rank state).toNat).getD 0

theorem rankedBy_toAdapter (a : PureAdapter) : RankedBy a.toAdapter a.rankOf := by
  intro polls state
  unfold rankState PureAdapter.rankOf PureAdapter.toAdapter
  cases a.partialRank <;> rfl

theorem pathTo_getLast (nodes : List PfNode) (fuel i : ℕ) (steps : List Step)
    (h : pathTo nodes fuel (some i) = some steps) :
    (clearFirst steps).getLast?.map (·.state) = some (nodeAt nodes i).state := by
  cases fuel with
  | zero => cases h
  | succ fuel =>
    obtain ⟨init, _, rfl⟩ := Option.map_eq_some_iff.mp h
    cases init with
    | nil => rfl
    | cons step init =>
      rw [List.cons_append, clearFirst, ← List.cons_append, List.getLast?_concat]
      rfl

/-- A partial path ends at the best of all the states that its search has generated, by their ranks
and by the costs that the nodes have at the end, and of the best ones at the first generated. -/
theorem partial_end_least (a : PureAdapter) (c : Context) (hc : LeftBehind c) (fuel : ℕ)
    (start : StateId) (options : Option Options) (polls polls' : ℕ) (r : SearchResult)
    (c' : Context)
    (h : atrinikPfSearch fuel (some c) (some a.toAdapter) start options polls =
      some (r, some c', polls'))
    (hp : r.status = .partialPath) :
    r.metrics.generated = c'.nodeCount ∧ (∀ i < c'.nodeCount, (c'.node i).sequence = i) ∧
      ∃ best < c'.nodeCount, r.steps.getLast?.map (·.state) = some (c'.node best).state ∧
        r.metrics.totalCost = (c'.node best).cost ∧
        ∀ i < c'.nodeCount, partialKey a.rankOf (c'.node best) ≤ partialKey a.rankOf (c'.node i) := by
  obtain ⟨neighbors, goal, started, last, _, _, hm, hlast, hrun⟩ := atrinikPfSearch_cases fuel c
    hc.shape a.toAdapter start options polls r _ polls' h (by rw [hp]; decide) (by rw [hp]; decide)
  obtain rfl := Option.some.inj hlast
  generalize options.getD atrinikPfOptionsInit = options at hm
  have hr := rankedBy_toAdapter a
  obtain ⟨last, hpass, hleft⟩ := search_passes (covers_ranked hr) neighbors goal fuel started
    ⟨hm.1, hm.2.1⟩
  have hranked : last.granted = true → Ranked options a.rankOf last.table := by
    refine hpass.carries (fun c => c.granted = true → Ranked options a.rankOf c.table) ?_ ?_
    · exact fun _ _ hlater hbefore hg => (hlater hg).2 (hbefore (hlater hg).1)
    · intro _
      rw [hm.2.2.1]
      exact start_ranked hr polls start
  generalize hout : (some (r, c', polls') : Finished ℕ SearchResult) = out at hrun
  cases hleft out hrun with
  | refused hoom world =>
    obtain ⟨r', _, _, he, _, hr'⟩ := hoom.refused world
    rw [← hout] at he
    rw [← (Prod.mk.inj (Option.some.inj he)).1, hp] at hr'
    cases hr'
  | finished hfin hg world status termination node hn hs =>
    obtain ⟨hwritten, ⟨total, hmetrics⟩, hpartial⟩ := finishSearch_leaves hfin status termination
      node hn world r c' polls' hout.symm
    have htable := hranked hg
    rcases hpartial hp with hstatus | ⟨hreturn, best, steps, hpn, hsteps, hrs, hcost⟩
    · -- no search stops with the status of a partial path
      have hstop := hs hstatus
      rw [hstatus] at hstop
      exact absurd hstop (htable.stop termination)
    obtain ⟨best', hpn', hlt, _, hleast⟩ := htable.best hreturn
    obtain rfl : best' = best := Option.some.inj (hpn'.symm.trans hpn)
    have hlen : last.table.nodes.length = last.nodeCount := hfin.indexed.length_eq
    rw [hlen] at hlt hleast
    have hkey (i : ℕ) (hi : i < last.nodeCount) :
        partialKey a.rankOf (nodeAt last.table.nodes i) = partialKey a.rankOf (last.node i) := by
      rw [show nodeAt last.table.nodes i = (last.node i).erase from hfin.indexed.nodeAt_eq i hi]
      rfl
    have hend := pathTo_getLast _ _ _ steps hsteps
    rw [← hrs, hfin.indexed.nodeAt_eq best' hlt] at hend
    obtain ⟨m, path, cap, _, rfl⟩ := hwritten
    refine ⟨?_, hfin.indexed.sequence, best', hlt, hend, hcost, fun i hi => ?_⟩
    · rw [hmetrics]
      exact hfin.generated
    · have hle := hleast i hi (by simp)
      rwa [hkey best' hlt, hkey i hi] at hle

/-- The sample graph with three expansions: node 4, which was created before node 1 became cheaper,
is still the best one, with the cost that it had. -/
theorem partial_end_least_detour :
    ∃ r c' polls', atrinikPfSearch 9 (some (atrinikPfContextCreate fun _ => true))
        (some (detour (fun _ => false) lateHeuristic).toAdapter) 0
        (some { algorithm := .astar, maxExpanded := 3, returnPartial := true }) 0 =
        some (r, some c', polls') ∧
      r.metrics.generated = c'.nodeCount ∧ (∀ i < c'.nodeCount, (c'.node i).sequence = i) ∧
      ∃ best < c'.nodeCount, r.steps.getLast?.map (·.state) = some (c'.node best).state ∧
        r.metrics.totalCost = (c'.node best).cost ∧ ∀ i < c'.nodeCount,
          partialKey (detour (fun _ => false) lateHeuristic).rankOf (c'.node best) ≤
            partialKey (detour (fun _ => false) lateHeuristic).rankOf (c'.node i) := by
  have hrun : (atrinikPfSearch 9 (some (atrinikPfContextCreate fun _ => true))
      (some (detour (fun _ => false) lateHeuristic).toAdapter) 0
      (some { algorithm := .astar, maxExpanded := 3, returnPartial := true }) 0).map
        (fun x => (x.1.status, x.2.1.isSome)) = some (.partialPath, true) := by
    decide +kernel
  obtain ⟨⟨r, c', polls'⟩, hx, heq⟩ := Option.map_eq_some_iff.mp hrun
  obtain ⟨hstatus, hsome⟩ := Prod.mk.inj heq
  obtain ⟨c', rfl⟩ := Option.isSome_iff_exists.mp hsome
  exact ⟨r, c', polls', hx, partial_end_least _ _ (.created _) 9 0 _ 0 polls' r c' hx hstatus⟩

end LibAtrinik.Pathfinding

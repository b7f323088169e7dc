import LibAtrinik.PathfindingLimits
import LibAtrinik.PathfindingTraversal

namespace LibAtrinik.Pathfinding

open Trace

variable {σ : Type} {adapter : Adapter σ} {options : Options} {table : Table}

theorem openCount_congr (nodes nodes' : List PfNode) (hl : nodes'.length = nodes.length)
    (hc : ∀ i < nodes.length, (nodeAt nodes' i).closed = (nodeAt nodes i).closed) :
    openCount nodes' = openCount nodes := by
  unfold openCount
  rw [hl]
  congr 1
  ext i
  simp only [Finset.mem_filter, Finset.mem_range, IsOpen, hl]
  constructor
  · rintro ⟨hi, _, ho⟩
    exact ⟨hi, hi, (hc i hi) ▸ ho⟩
  · rintro ⟨hi, _, ho⟩
    exact ⟨hi, hi, (hc i hi).trans ho⟩

theorem openCount_close_le (i : ℕ) (hi : i < table.nodes.length) :
    openCount (table.close i).nodes ≤ openCount table.nodes := by
  apply Finset.card_le_card
  intro j hj
  simp only [Table.close, Finset.mem_filter, Finset.mem_range, IsOpen, List.length_set,
    nodeAt_set _ _ i j hi] at hj ⊢
  obtain ⟨hlt, _, ho⟩ := hj
  split_ifs at ho
  exact ⟨hlt, hlt, ho⟩

theorem statesOf_set (nodes : List PfNode) (i : ℕ) (node : PfNode)
    (hs : node.state = (nodeAt nodes i).state) :
    statesOf (nodes.set i node) = statesOf nodes := by
  unfold statesOf
  rw [List.map_set, hs]
  apply List.ext_getElem?
  intro j
  rw [List.getElem?_set]
  split_ifs with hij hlt
  · subst hij
    rw [List.length_map] at hlt
    simp [nodeAt, hlt]
  · subst hij
    exact (List.getElem?_eq_none (by omega)).symm
  · rfl

/-- The number of states that a table has discovered is right. -/
def Table.GeneratedRight (table : Table) : Prop :=
  table.metrics.generated = (statesOf table.nodes).toFinset.card

/-- From one table to a later one of a search. -/
structure Counted (t t' : Table) : Prop where
  peak : openCount t.nodes ≤ t.metrics.peakFrontier →
    t'.metrics.peakFrontier = max t.metrics.peakFrontier (openCount t'.nodes)
  generated : t.GeneratedRight → t'.GeneratedRight

/-- A step that opens no node and discovers no state. -/
theorem Counted.of_same {t t' : Table} (hopen : openCount t'.nodes ≤ openCount t.nodes)
    (hpeak : t'.metrics.peakFrontier = t.metrics.peakFrontier)
    (hgen : t'.metrics.generated = t.metrics.generated)
    (hstates : statesOf t'.nodes = statesOf t.nodes) : Counted t t' := by
  refine ⟨fun hle => ?_, fun hright => ?_⟩
  · rw [hpeak, max_eq_left (hopen.trans hle)]
  · unfold Table.GeneratedRight
    rw [hgen, hstates]
    exact hright

theorem considerPartial_metrics (table : Table) (adapter : Adapter σ) (options : Options)
    (world : σ) (i : ℕ) :
    (table.considerPartial adapter options world i).1.metrics = table.metrics := by
  unfold Table.considerPartial
  by_cases hp : options.returnPartial = true
  · simp only [if_pos hp]
    cases table.partialNode with
    | none => rfl
    | some best =>
      dsimp only
      split_ifs <;> rfl
  · rw [if_neg hp]

/-- Opening a node raises the mark. -/
theorem recordFrontier_peak (table : Table) :
    table.recordFrontier.metrics.peakFrontier =
      max table.metrics.peakFrontier (openCount table.nodes) := by
  show (if openCount table.nodes > table.metrics.peakFrontier then _ else _) = _
  split_ifs with h
  · exact (max_eq_right h.le).symm
  · exact (max_eq_left (not_lt.mp h)).symm

/-- A state that has no node yet is one more. -/
theorem card_statesOf_append (nodes : List PfNode) (node : PfNode)
    (h : findState nodes node.state = none) :
    (statesOf (nodes ++ [node])).toFinset.card = (statesOf nodes).toFinset.card+1 := by
  have hnew : node.state ∉ (statesOf nodes).toFinset := by
    intro hmem
    have hsome := (findState_isSome _ _).mpr (List.mem_toFinset.mp hmem)
    rw [h] at hsome
    cases hsome
  have hinsert : (statesOf (nodes ++ [node])).toFinset =
      insert node.state (statesOf nodes).toFinset := by
    ext state
    simp [statesOf]
  rw [hinsert, Finset.card_insert_of_notMem hnew]

theorem emitNew_counted (active : ℕ) (world : σ) (t : Transition) (cost : ℕ)
    (h : findState table.nodes t.state = none) :
    Counted table (table.emitNew adapter options active world t cost).2.1 := by
  unfold Table.emitNew
  by_cases hgen : spent options.maxGenerated table.metrics.generated = true
  · rw [if_pos hgen]
    exact .of_same le_rfl rfl rfl rfl
  by_cases hfull : spent options.maxFrontier (openCount table.nodes) = true
  · rw [if_neg hgen, if_pos hfull]
    exact .of_same le_rfl rfl rfl rfl
  rw [if_neg hgen, if_neg hfull]
  dsimp only
  generalize scoreState adapter options.algorithm world t.state = score
  let candidate : PfNode := {
    state := t.state, cost := cost, heuristic := score.1
    priority := pfPriority options.algorithm cost score.1
    transitionData := t.data, parent := some active, sequence := table.nodes.length }
  let grown : Table := { table with
    nodes := table.nodes ++ [candidate]
    metrics := { table.metrics with generated := table.metrics.generated+1 } }
  show Counted table
    (grown.considerPartial adapter options score.2 table.nodes.length).1.recordFrontier
  have hnodes := (considerPartial_nodes grown adapter options score.2 table.nodes.length).1
  have hmetrics := considerPartial_metrics grown adapter options score.2 table.nodes.length
  generalize (grown.considerPartial adapter options score.2 table.nodes.length).1 = considered
    at hnodes hmetrics ⊢
  constructor
  · intro _
    rw [recordFrontier_peak, hmetrics]
    rfl
  · intro hright
    show considered.metrics.generated = (statesOf considered.nodes).toFinset.card
    rw [hmetrics, hnodes, card_statesOf_append table.nodes candidate h, ← hright]

theorem emitImproved_counted (active : ℕ) (world : σ) (t : Transition) (cost i : ℕ)
    (hi : i < table.nodes.length) :
    Counted table (table.emitImproved adapter options active world t cost i).2.1 := by
  unfold Table.emitImproved
  dsimp only
  by_cases hfull : ((nodeAt table.nodes i).closed &&
      spent options.maxFrontier (openCount table.nodes)) = true
  · rw [if_pos hfull]
    exact .of_same le_rfl rfl rfl rfl
  rw [if_neg hfull]
  let improved := (nodeAt table.nodes i).improved options.algorithm cost t (some active)
  let updated : Table := { table with nodes := table.nodes.set i improved }
  have hnodes := (considerPartial_nodes updated adapter options world i).1
  have hmetrics := considerPartial_metrics updated adapter options world i
  have hstates : statesOf (table.nodes.set i improved) = statesOf table.nodes :=
    statesOf_set _ _ _ rfl
  show Counted table (if _ then _ else _ : Bool × Table × σ).2.1
  generalize updated.considerPartial adapter options world i = considered at hnodes hmetrics ⊢
  by_cases hc : (nodeAt table.nodes i).closed = true
  · -- a closed node is opened again and counts for the frontier, but it is no new state
    rw [if_pos hc]
    constructor
    · intro _
      rw [recordFrontier_peak]
      show max considered.1.metrics.peakFrontier _ = _
      rw [hmetrics]
      rfl
    · intro hright
      show considered.1.metrics.generated =
        (statesOf (considered.1.nodes.set i improved.reopened)).toFinset.card
      have hreopened : statesOf (considered.1.nodes.set i improved.reopened) =
          statesOf table.nodes := by
        rw [hnodes]
        show statesOf ((table.nodes.set i improved).set i improved.reopened) = _
        rw [List.set_set]
        exact statesOf_set _ _ _ rfl
      rw [hreopened, hmetrics]
      exact hright
  · -- an open node stays open
    rw [if_neg hc]
    refine .of_same (le_of_eq ?_) (by rw [hmetrics]) (by rw [hmetrics])
      (by rw [hnodes]; exact hstates)
    rw [hnodes]
    refine openCount_congr _ _ List.length_set fun j _ => ?_
    show (nodeAt (table.nodes.set i improved) j).closed = _
    rw [nodeAt_set _ _ _ _ hi]
    split_ifs with hji
    · rw [hji]
      rfl
    · rfl

theorem emitSearch_counted (active : ℕ) (world : σ) (t : Transition) :
    Counted table (table.emitSearch adapter options active world t).2.1 := by
  unfold Table.emitSearch
  dsimp only
  split_ifs
  · exact .of_same le_rfl rfl rfl rfl
  · cases hf : findState table.nodes t.state with
    | none => exact emitNew_counted active world t _ hf
    | some i =>
      dsimp only
      split_ifs
      · exact .of_same le_rfl rfl rfl rfl
      · exact emitImproved_counted active world t _ i (findState_eq_some _ _ _ hf).1

/-- The checks before an emission change none of the counters in question. -/
theorem emitGuarded_cases (P : Table → Prop)
    (emit : Table → σ → Transition → Bool × Table × σ) (world : σ) (t : Option Transition)
    (hkept : P table) (hstop : ∀ status termination, P (table.stopWith status termination))
    (hemit : ∀ world t, P (emit table.countExamined world t).2.1) :
    P (table.emitGuarded adapter options emit world t).2.1 := by
  unfold Table.emitGuarded
  by_cases hs : table.stop.isSome = true
  · rw [if_pos hs]
    exact hkept
  · rw [if_neg hs]
    cases t with
    | none => exact hstop _ _
    | some t =>
      dsimp only
      split_ifs
      · exact hstop _ _
      · exact hstop _ _
      · exact hemit _ t

theorem close_counted (i : ℕ) (hi : i < table.nodes.length) : Counted table (table.close i) :=
  .of_same (openCount_close_le i hi) rfl rfl (statesOf_set _ _ _ rfl)

theorem covers_counted (adapter : Adapter σ) (options : Options) :
    CoversSearch adapter options Counted where
  refl _ := .of_same le_rfl rfl rfl rfl
  emit i table world t := by
    rw [Table.emit_true]
    refine emitGuarded_cases _ _ world t (.of_same le_rfl rfl rfl rfl)
      (fun _ _ => .of_same le_rfl rfl rfl rfl) fun world t => ?_
    have hemit := @emitSearch_counted σ adapter options table.countExamined i world t
    exact ⟨hemit.peak, hemit.generated⟩
  fail _ := .of_same le_rfl rfl rfl rfl
  close _ := close_counted
  total _ _ := .of_same le_rfl rfl rfl rfl

theorem waiting_eq (taken count : ℕ) : waiting taken count = count-taken := by
  have hico : (Finset.range count).filter (taken ≤ ·) = Finset.Ico taken count := by
    ext i
    simp [and_comm]
  rw [waiting, hico, Nat.card_Ico]

/-- From one table of a traversal to a later one, each with the number of nodes that have been taken
from the queue. -/
structure CountedAt (p q : ℕ × Table) : Prop where
  expanded : p.1 = p.2.metrics.expanded → q.1 = q.2.metrics.expanded
  peak : p.1 = p.2.metrics.expanded →
    waiting p.1 p.2.nodes.length ≤ p.2.metrics.peakFrontier →
    q.2.metrics.peakFrontier = max p.2.metrics.peakFrontier (waiting q.1 q.2.nodes.length)
  generated : p.2.GeneratedRight → q.2.GeneratedRight

/-- A step that discovers no state. -/
theorem CountedAt.of_same {k : ℕ} {t t' : Table} (hexp : t'.metrics.expanded = t.metrics.expanded)
    (hpeak : t'.metrics.peakFrontier = t.metrics.peakFrontier)
    (hgen : t'.metrics.generated = t.metrics.generated) (hnodes : t'.nodes = t.nodes) :
    CountedAt (k, t) (k, t') := by
  refine ⟨fun he => he.trans hexp.symm, fun _ hle => ?_, fun hright => ?_⟩
  · show t'.metrics.peakFrontier = _
    rw [hpeak, hnodes]
    exact (max_eq_left hle).symm
  · show t'.metrics.generated = _
    rw [hgen, hnodes]
    exact hright

theorem emitReachable_counted (k active : ℕ) (t : Transition) :
    CountedAt (k, table) (k, (table.emitReachable options active t).2) := by
  unfold Table.emitReachable
  by_cases hf : (findState table.nodes t.state).isSome = true
  · rw [if_pos hf]
    exact .of_same rfl rfl rfl rfl
  by_cases hgen : spent options.maxGenerated table.metrics.generated = true
  · rw [if_neg hf, if_pos hgen]
    exact .of_same rfl rfl rfl rfl
  by_cases hfull : spent options.maxFrontier (table.nodes.length-table.metrics.expanded) = true
  · rw [if_neg hf, if_neg hgen, if_pos hfull]
    exact .of_same rfl rfl rfl rfl
  rw [if_neg hf, if_neg hgen, if_neg hfull]
  have hnone : findState table.nodes t.state = none := by simpa using hf
  refine ⟨id, fun hk _ => ?_, fun hright => ?_⟩
  · -- the code subtracts the expanded nodes from all nodes, and those are the ones taken
    dsimp only at hk ⊢
    rw [waiting_eq, List.length_append, List.length_singleton, ← hk]
    split_ifs with hgt
    · exact (max_eq_right hgt.le).symm
    · exact (max_eq_left (not_lt.mp hgt)).symm
  · unfold Table.GeneratedRight at hright ⊢
    dsimp only at hright ⊢
    rw [card_statesOf_append _ _ hnone, ← hright]

/-- The next node of the queue is taken. -/
theorem take_countedAt (k : ℕ) (table : Table) :
    CountedAt (k, table) (k+1, { table with metrics := { table.metrics with
      expanded := table.metrics.expanded+1 } }) := by
  refine ⟨congrArg (·+1), fun _ hle => ?_, id⟩
  · dsimp only at hle ⊢
    rw [waiting_eq] at hle ⊢
    exact (max_eq_left (by omega)).symm

theorem covers_countedAt (adapter : Adapter σ) (options : Options) :
    CoversTraversal adapter options CountedAt where
  expansion k := by
    refine ⟨fun _ => .of_same rfl rfl rfl rfl, fun i table world t => ?_,
      fun _ => .of_same rfl rfl rfl rfl⟩
    rw [Table.emit_false]
    refine emitGuarded_cases (fun t' => CountedAt (k, table) (k, t')) _ world t
      (.of_same rfl rfl rfl rfl) (fun _ _ => .of_same rfl rfl rfl rfl) fun world t => ?_
    have hemit := @emitReachable_counted options table.countExamined k i t
    exact ⟨hemit.expanded, hemit.peak, hemit.generated⟩
  stop _ _ _ _ := .of_same rfl rfl rfl rfl
  take := take_countedAt

/-- From one moment to the next: what is counted is right, and the mark rises to the number of open
states, unless memory has been refused. -/
def Moment.Follows (p q : Moment) : Prop :=
  q.granted = true → p.granted = true ∧ q.context.table.GeneratedRight ∧
    (p.openStates ≤ p.context.metrics.peakFrontier →
      q.context.metrics.peakFrontier = max p.context.metrics.peakFrontier q.openStates)

/-- While the allocations succeed, `generated` is the number of the states discovered so far and
`peak_frontier` the greatest number of states that have been open so far. -/
def Tracked (moments : List Moment) : Prop :=
  ∀ front p back, moments = front ++ p :: back → p.granted = true →
    p.context.metrics.generated = (statesOf p.context.nodeList).toFinset.card ∧
    IsGreatest {n | ∃ q ∈ front ++ [p], q.openStates = n} p.context.metrics.peakFrontier

theorem tracked_of_passes {first last : Moment} {rest : List Moment}
    (h : Passes Moment.Follows first rest last) (hg : first.context.table.GeneratedRight)
    (hp : first.context.metrics.peakFrontier = first.openStates) : Tracked (first :: rest) := by
  have hmarks : Passes (Marks (fun p => p.granted = true) Moment.openStates
      (fun p => p.context.metrics.peakFrontier)) first rest last :=
    h.mono fun a b hab hb => ⟨(hab hb).1, (hab hb).2.2⟩
  intro front p back hl hgranted
  refine ⟨?_, hmarks.isGreatest (fun _ => hp) front p back hl hgranted⟩
  exact h.history (fun _ p => p.granted = true → p.context.table.GeneratedRight)
    (fun _ _ _ hab _ hb => (hab hb).2.1) [] (fun _ => hg) front p back hl hgranted

/-- The table that holds the start node alone. -/
theorem start_counted (adapter : Adapter σ) (options : Options) (world : σ) (start : StateId) :
    (Table.start adapter options world start).1.GeneratedRight ∧
      (Table.start adapter options world start).1.metrics.peakFrontier = 1 ∧
      openCount (Table.start adapter options world start).1.nodes = 1 := by
  unfold Table.start Table.GeneratedRight
  dsimp only
  rw [considerPartial_metrics, (considerPartial_nodes _ _ _ _ _).1]
  exact ⟨rfl, rfl, rfl⟩

theorem search_tracked (c : Context) (hs : Shape c) (fuel : ℕ) (adapter : Option (Adapter σ))
    (start : StateId) (options : Option Options) (world : σ) :
    Tracked (atrinikPfSearchMoments fuel c adapter start options world) := by
  have hcall := atrinikPfSearch_call fuel c adapter start options world
  have hstart (a : Adapter σ) :=
    pfSearchStart_agrees a c hs (options.getD atrinikPfOptionsInit) world start
  generalize options.getD atrinikPfOptionsInit = o at hcall hstart
  generalize atrinikPfSearchMoments fuel c adapter start options world = moments at hcall ⊢
  generalize atrinikPfSearch fuel (some c) adapter start options world = out at hcall
  have hfresh (rest : List Moment) (last : Moment)
      (h : Passes Moment.Follows (searchMoment (pfReset c o)) rest last) :
      Tracked (searchMoment (pfReset c o) :: rest) := tracked_of_passes h rfl rfl
  cases hcall with
  | rejected => exact hfresh [] _ (.nil _)
  | unstarted => exact hfresh _ _ (.single fun hg => absurd hg Bool.false_ne_true)
  | ran adapter neighbors goal hn hg started hok =>
    have hm : Matches o started (Table.start adapter o world start) := by
      rcases hstart adapter with ⟨hfail, _⟩ | ⟨_, hm⟩
      · rw [hok] at hfail
        exact nomatch hfail
      · rwa [hok] at hm
    obtain ⟨hright, hpeak, hopen⟩ := start_counted adapter o world start
    rw [← hm.2.2.1] at hright hpeak hopen
    obtain ⟨last, hpass⟩ := searchRun_passes (covers_counted adapter o) neighbors goal fuel started
      ⟨hm.1, hm.2.1⟩
    have hcounted := hpass.invariant (fun c => c.granted = true → c.table.GeneratedRight)
      (fun _ _ hlater hbefore hg => (hlater hg).2.generated (hbefore (hlater hg).1))
      (fun _ => hright)
    refine hfresh _ _ (.cons ?_ (hcounted.map searchMoment fun a b hab hg =>
      ⟨(hab.1 hg).1, hab.2.2 hg, (hab.1 hg).2.peak⟩))
    -- from the empty table to the one that holds the start node
    refine fun _ => ⟨rfl, hright, fun _ => ?_⟩
    show started.1.table.metrics.peakFrontier = max 0 (openCount started.1.table.nodes)
    rw [hpeak, hopen]
    rfl

theorem reachable_tracked (c : Context) (hs : Shape c) (fuel : ℕ) (adapter : Option (Adapter σ))
    (start : StateId) (options : Option Options) (world : σ) :
    Tracked (atrinikPfReachableMoments fuel c adapter start options world) := by
  have hcall := atrinikPfReachable_call fuel c adapter start options world
  generalize options.getD atrinikPfOptionsInit = o at hcall
  generalize atrinikPfReachableMoments fuel c adapter start options world = moments at hcall ⊢
  generalize atrinikPfReachable fuel (some c) adapter start options world = out at hcall
  have hfresh (rest : List Moment) (last : Moment) (h : Passes Moment.Follows
      (traversalMoment (0, { pfReset c o with reachability := true })) rest last) :
      Tracked (traversalMoment (0, { pfReset c o with reachability := true }) :: rest) :=
    tracked_of_passes h rfl rfl
  cases hcall with
  | rejected => exact hfresh [] _ (.nil _)
  | unstarted => exact hfresh _ _ (.single fun hg => absurd hg Bool.false_ne_true)
  | ran adapter neighbors hn i c' started hadd hstarted =>
    rcases pfReachableStart_agrees c hs o world start _ hadd with ⟨hnone, _⟩ | ⟨_, hm⟩
    · exact nomatch hnone
    rw [show ({ (some i, c').2 with metrics := { (some i, c').2.metrics with
      generated := 1, peakFrontier := 1 } } : Context) = started from hstarted] at hm
    obtain ⟨_, hrun, hstop, htab, _⟩ := hm
    dsimp only at hrun hstop htab
    obtain ⟨last, hpass⟩ := reachable_passes (covers_countedAt adapter o) neighbors fuel
      (0, started, world) ⟨hrun, hstop⟩
    have hright : started.table.GeneratedRight := by
      rw [htab]
      rfl
    have hcounted := hpass.invariant
      (fun p => p.2.granted = true → p.1 = p.2.metrics.expanded ∧ p.2.table.GeneratedRight)
      (fun _ _ hlater hbefore hg =>
        ⟨(hlater hg).2.expanded (hbefore (hlater hg).1).1,
          (hlater hg).2.generated (hbefore (hlater hg).1).2⟩)
      (fun _ => ⟨(congrArg (·.metrics.expanded) htab).symm, hright⟩)
    refine hfresh _ _ (.cons ?_ (hcounted.map traversalMoment fun a b hab hg =>
      ⟨(hab.1 hg).1, (hab.2.2 hg).2, (hab.1 hg).2.peak (hab.2.1 (hab.1 hg).1).1⟩))
    -- the start node is open, and nothing has been taken from the queue yet
    refine fun _ => ⟨rfl, hright, fun _ => ?_⟩
    show started.table.metrics.peakFrontier = max 0 (waiting 0 started.table.nodes.length)
    rw [htab]
    rfl

/-- At every moment of a search and of a traversal the budgets bound their metrics, whatever the
adapter does, and while the allocations succeed `generated` and `peak_frontier` are what they are
meant to be. -/
theorem budgets_never_exceeded (c : Context) (hc : LeftBehind c) (fuel : ℕ)
    (adapter : Option (Adapter σ)) (start : StateId) (options : Option Options) (world : σ) :
    ((∀ p ∈ atrinikPfSearchMoments fuel c adapter start options world,
        WithinBudgets (options.getD atrinikPfOptionsInit) p.context.metrics) ∧
      (∀ r c' world', atrinikPfSearch fuel (some c) adapter start options world =
        some (r, c', world') → WithinBudgets (options.getD atrinikPfOptionsInit) r.metrics) ∧
      Tracked (atrinikPfSearchMoments fuel c adapter start options world)) ∧
    ((∀ p ∈ atrinikPfReachableMoments fuel c adapter start options world,
        WithinBudgets (options.getD atrinikPfOptionsInit) p.context.metrics) ∧
      (∀ r c' world', atrinikPfReachable fuel (some c) adapter start options world =
        some (r, c', world') → WithinBudgets (options.getD atrinikPfOptionsInit) r.metrics) ∧
      Tracked (atrinikPfReachableMoments fuel c adapter start options world)) := by
  obtain ⟨hsearch, hresult⟩ := atrinikPfSearch_within fuel c adapter start options world
  obtain ⟨hreachable, hresult'⟩ := atrinikPfReachable_within fuel c adapter start options world
  exact ⟨⟨hsearch, hresult, search_tracked c hc.shape fuel adapter start options world⟩,
    hreachable, hresult', reachable_tracked c hc.shape fuel adapter start options world⟩

/-- The sample graph with room for two open states: each expansion closes one state before it opens
the next ones, and the third open state never comes about. -/
theorem budgets_never_exceeded_detour :
    let moments := atrinikPfSearchMoments 9 (atrinikPfContextCreate fun _ => true)
      (some (detour (· = 4) steepHeuristic).toAdapter) 0
      (some { algorithm := .astar, maxFrontier := 2 }) 0
    (∀ p ∈ moments, p.context.metrics.peakFrontier ≤ 2) ∧ Tracked moments ∧
      (moments.take 10).map (fun p => (p.openStates, p.context.metrics.peakFrontier)) =
        [(0, 0), (1, 1), (1, 1), (0, 1), (0, 1), (1, 1), (2, 2), (2, 2), (2, 2), (1, 2)] := by
  intro moments
  have h := budgets_never_exceeded (atrinikPfContextCreate fun _ => true) (.created _) 9
    (some (detour (· = 4) steepHeuristic).toAdapter) 0
    (some { algorithm := .astar, maxFrontier := 2 }) 0
  exact ⟨fun p hp => (h.1.1 p hp).frontier (by decide), h.1.2.2, by decide +kernel⟩

end LibAtrinik.Pathfinding

import LibAtrinik.PathfindingFrontier
import LibAtrinik.PathfindingPure

namespace LibAtrinik.Pathfinding

/-- The heuristic that the node of a state gets. -/
def PureAdapter.score (a : PureAdapter) (algorithm : Algorithm) (state : StateId) : ℕ :=
  if algorithm = .astar ∨ algorithm = .greedyBestFirst then
    (a.heuristic.map fun heuristic => (heuristic state).toNat).getD 0
  else 0

theorem scoreState_toAdapter (a : PureAdapter) (algorithm : Algorithm) (polls : ℕ)
    (state : StateId) :
    scoreState a.toAdapter algorithm polls state = (a.score algorithm state, polls) := by
  unfold scoreState PureAdapter.score PureAdapter.toAdapter
  split_ifs with h
  · cases a.heuristic <;> rfl
  · rfl

theorem considerPartial_nodes {σ : Type} (table : Table) (adapter : Adapter σ) (options : Options)
    (world : σ) (i : ℕ) :
    (table.considerPartial adapter options world i).1.nodes = table.nodes ∧
      (table.considerPartial adapter options world i).1.stop = table.stop ∧
      ((table.considerPartial adapter options world i).1.partialNode = some i ∨
        (table.considerPartial adapter options world i).1.partialNode = table.partialNode) := by
  unfold Table.considerPartial
  by_cases hp : options.returnPartial = true
  · simp only [if_pos hp]
    cases hb : table.partialNode with
    | none => exact ⟨rfl, rfl, Or.inl rfl⟩
    | some best =>
      dsimp only
      split_ifs
      · exact ⟨rfl, rfl, Or.inl rfl⟩
      · exact ⟨rfl, rfl, Or.inr hb⟩
  · rw [if_neg hp]
    exact ⟨rfl, rfl, Or.inr rfl⟩

/-- The node that a state gets when it is discovered from the node `active`. -/
def discovered (a : PureAdapter) (algorithm : Algorithm) (active : ℕ) (t : Transition)
    (cost sequence : ℕ) : PfNode where
  state := t.state
  cost := cost
  heuristic := a.score algorithm t.state
  priority := pfPriority algorithm cost (a.score algorithm t.state)
  transitionData := t.data
  parent := some active
  sequence := sequence

/-- What a transition from the node `active` does to the nodes. -/
inductive Relax (a : PureAdapter) (algorithm : Algorithm) (active : ℕ) (t : Transition)
    (nodes : List PfNode) : List PfNode → Prop where
  | kept (i : ℕ) (hfind : findState nodes t.state = some i)
      (hle : (nodeAt nodes i).cost ≤ (nodeAt nodes active).cost+stepCost algorithm t)
      (hmax : stepCost algorithm t ≤ uint64Max-(nodeAt nodes active).cost) :
      Relax a algorithm active t nodes nodes
  | added (hfind : findState nodes t.state = none)
      (hmax : stepCost algorithm t ≤ uint64Max-(nodeAt nodes active).cost) :
      Relax a algorithm active t nodes (nodes ++ [discovered a algorithm active t
        ((nodeAt nodes active).cost+stepCost algorithm t) nodes.length])
  | lowered (i : ℕ) (hfind : findState nodes t.state = some i)
      (hlt : (nodeAt nodes active).cost+stepCost algorithm t < (nodeAt nodes i).cost)
      (hmax : stepCost algorithm t ≤ uint64Max-(nodeAt nodes active).cost) :
      Relax a algorithm active t nodes (nodes.set i ((nodeAt nodes i).improved algorithm
        ((nodeAt nodes active).cost+stepCost algorithm t) t (some active)).reopened)

/-- The transitions of a list, relaxed one after the other. -/
inductive RelaxAll (a : PureAdapter) (algorithm : Algorithm) (active : ℕ) :
    List Transition → List PfNode → List PfNode → Prop where
  | nil (nodes : List PfNode) : RelaxAll a algorithm active [] nodes nodes
  | cons (t : Transition) (ts : List Transition) (nodes nodes' nodes'' : List PfNode)
      (h : Relax a algorithm active t nodes nodes')
      (hs : RelaxAll a algorithm active ts nodes' nodes'') :
      RelaxAll a algorithm active (t :: ts) nodes nodes''

/-- Why a search with a pure adapter is stopped during an expansion. -/
inductive StopReason (a : PureAdapter) (options : Options) : Status → Termination → Prop where
  | cancelled (h : a.cancelled ≠ none) : StopReason a options .cancelled .cancelled
  | limit (h : ¬(options.maxExpanded = 0 ∧ options.maxGenerated = 0 ∧
      options.maxTransitions = 0 ∧ options.maxFrontier = 0)) :
      StopReason a options .limitReached .limit
  | overflow : StopReason a options .costOverflow .costOverflow
  | failure (state : StateId) (h : a.enumerated state = false) :
      StopReason a options .adapterError .adapterError

/-- The table has been stopped for one of the reasons. -/
def Halted (a : PureAdapter) (options : Options) (table : Table) : Prop :=
  ∃ status termination, table.stop = some (status, termination) ∧
    StopReason a options status termination

theorem Halted.isSome {a : PureAdapter} {options : Options} {table : Table}
    (h : Halted a options table) : table.stop.isSome = true := by
  obtain ⟨s, r, hs, _⟩ := h
  rw [hs]
  rfl

theorem spent_ne_zero {budget used : ℕ} (h : spent budget used = true) : budget ≠ 0 := by
  simp only [spent, ne_eq, decide_eq_true_eq] at h
  exact h.1

/-- The node that may be returned as the end of a partial path is a node. -/
def BestBelow (table : Table) : Prop := ∀ i, table.partialNode = some i → i < table.nodes.length

theorem BestBelow.considerPartial {σ : Type} {table : Table} (h : BestBelow table)
    (adapter : Adapter σ) (options : Options) (world : σ) (i : ℕ) (hi : i < table.nodes.length) :
    BestBelow (table.considerPartial adapter options world i).1 := by
  obtain ⟨hn, _, hb⟩ := considerPartial_nodes table adapter options world i
  intro j hj
  rw [hn]
  rcases hb with hb | hb
  · rw [hb] at hj
    exact Option.some.inj hj ▸ hi
  · rw [hb] at hj
    exact h j hj

/-- What one emission to a running search comes to. -/
structure Emitted (a : PureAdapter) (options : Options) (active : ℕ) (t : Transition)
    (table : Table) (r : Bool × Table × ℕ) : Prop where
  best : BestBelow r.2.1
  cases : (r.1 = false ∧ Halted a options r.2.1 ∧ r.2.1.nodes = table.nodes) ∨
    (r.1 = true ∧ r.2.1.stop = none ∧ Relax a options.algorithm active t table.nodes r.2.1.nodes)

theorem Emitted.halt {a : PureAdapter} {options : Options} {active : ℕ} {t : Transition}
    {table : Table} (hb : BestBelow table) {status : Status} {termination : Termination}
    (h : StopReason a options status termination) (polls : ℕ) :
    Emitted a options active t table (false, table.stopWith status termination, polls) :=
  ⟨hb, Or.inl ⟨rfl, ⟨status, termination, rfl, h⟩, rfl⟩⟩

theorem emitNew_emitted (a : PureAdapter) (options : Options) (active : ℕ) (table : Table)
    (polls : ℕ) (t : Transition) (hs : table.stop = none) (hb : BestBelow table)
    (hfind : findState table.nodes t.state = none)
    (hmax : stepCost options.algorithm t ≤ uint64Max-(nodeAt table.nodes active).cost) :
    Emitted a options active t table (table.emitNew a.toAdapter options active polls t
      ((nodeAt table.nodes active).cost+stepCost options.algorithm t)) := by
  unfold Table.emitNew
  by_cases hgen : spent options.maxGenerated table.metrics.generated = true
  · rw [if_pos hgen]
    exact Emitted.halt hb (.limit fun h => spent_ne_zero hgen h.2.1) polls
  by_cases hfull : spent options.maxFrontier (openCount table.nodes) = true
  · rw [if_neg hgen, if_pos hfull]
    exact Emitted.halt hb (.limit fun h => spent_ne_zero hfull h.2.2.2) polls
  rw [if_neg hgen, if_neg hfull, scoreState_toAdapter]
  dsimp only
  let grown : Table := { table with
    nodes := table.nodes ++ [discovered a options.algorithm active t
      ((nodeAt table.nodes active).cost+stepCost options.algorithm t) table.nodes.length]
    metrics := { table.metrics with generated := table.metrics.generated+1 } }
  have hgrown : BestBelow grown := by
    intro i hi
    simp only [grown, List.length_append, List.length_singleton]
    exact Nat.lt_succ_of_lt (hb i hi)
  have hlt : table.nodes.length < grown.nodes.length := by simp [grown]
  obtain ⟨hn, hst, _⟩ := considerPartial_nodes grown a.toAdapter options polls table.nodes.length
  refine ⟨hgrown.considerPartial a.toAdapter options polls _ hlt, Or.inr ⟨rfl, hst.trans hs, ?_⟩⟩
  show Relax _ _ _ _ _ (grown.considerPartial a.toAdapter options polls table.nodes.length).1.nodes
  rw [hn]
  exact Relax.added hfind hmax

theorem emitImproved_emitted (a : PureAdapter) (options : Options) (active : ℕ) (table : Table)
    (polls : ℕ) (t : Transition) (hs : table.stop = none) (hb : BestBelow table) (i : ℕ)
    (hfind : findState table.nodes t.state = some i)
    (hlt : (nodeAt table.nodes active).cost+stepCost options.algorithm t <
      (nodeAt table.nodes i).cost)
    (hmax : stepCost options.algorithm t ≤ uint64Max-(nodeAt table.nodes active).cost) :
    Emitted a options active t table (table.emitImproved a.toAdapter options active polls t
      ((nodeAt table.nodes active).cost+stepCost options.algorithm t) i) := by
  have hi : i < table.nodes.length := (findState_eq_some _ _ _ hfind).1
  unfold Table.emitImproved
  dsimp only
  by_cases hfull : ((nodeAt table.nodes i).closed &&
      spent options.maxFrontier (openCount table.nodes)) = true
  · rw [if_pos hfull]
    have hsp := (Bool.and_eq_true_iff.mp hfull).2
    exact Emitted.halt hb (.limit fun h => spent_ne_zero hsp h.2.2.2) polls
  rw [if_neg hfull]
  let improved := (nodeAt table.nodes i).improved options.algorithm
    ((nodeAt table.nodes active).cost+stepCost options.algorithm t) t (some active)
  let updated : Table := { table with nodes := table.nodes.set i improved }
  have hupdated : BestBelow updated := by
    intro j hj
    simp only [updated, List.length_set]
    exact hb j hj
  have hi' : i < updated.nodes.length := by simpa [updated] using hi
  obtain ⟨hn, hst, _⟩ := considerPartial_nodes updated a.toAdapter options polls i
  have hbest := hupdated.considerPartial a.toAdapter options polls i hi'
  cases hc : (nodeAt table.nodes i).closed with
  | true =>
    simp only [if_true]
    refine ⟨?_, Or.inr ⟨rfl, hst.trans hs, ?_⟩⟩
    · intro j hj
      have hj' := hbest j hj
      show j < (List.set _ _ _).length
      rw [List.length_set]
      exact hj'
    · have hset : (updated.considerPartial a.toAdapter options polls i).1.nodes.set i
          improved.reopened = table.nodes.set i improved.reopened := by
        rw [hn]
        exact List.set_set _
      show Relax _ _ _ _ _ ((updated.considerPartial a.toAdapter options polls i).1.nodes.set i
        improved.reopened)
      rw [hset]
      exact Relax.lowered i hfind hlt hmax
  | false =>
    simp only [Bool.false_eq_true, if_false]
    refine ⟨hbest, Or.inr ⟨rfl, hst.trans hs, ?_⟩⟩
    -- an open node stays as it is when it is opened
    have hsame : improved.reopened = improved := by
      have hopen : improved.closed = false := hc
      unfold PfNode.reopened
      rw [← hopen]
    show Relax _ _ _ _ _ (updated.considerPartial a.toAdapter options polls i).1.nodes
    rw [hn]
    show Relax _ _ _ _ _ (table.nodes.set i improved)
    rw [← hsame]
    exact Relax.lowered i hfind hlt hmax

theorem emitSearch_emitted (a : PureAdapter) (options : Options) (active : ℕ) (table : Table)
    (polls : ℕ) (t : Transition) (hs : table.stop = none) (hb : BestBelow table) :
    Emitted a options active t table (table.emitSearch a.toAdapter options active polls t) := by
  unfold Table.emitSearch
  dsimp only
  by_cases hover : uint64Max-(nodeAt table.nodes active).cost < stepCost options.algorithm t
  · rw [if_pos hover]
    exact Emitted.halt hb .overflow polls
  rw [if_neg hover]
  cases hf : findState table.nodes t.state with
  | none => exact emitNew_emitted a options active table polls t hs hb hf (by omega)
  | some i =>
    dsimp only
    split_ifs with hge
    · exact ⟨hb, Or.inr ⟨rfl, hs, Relax.kept i hf hge (by omega)⟩⟩
    · exact emitImproved_emitted a options active table polls t hs hb i hf (by omega) (by omega)

/-- One emission of a pure adapter, with the checks that precede it. -/
theorem searchEmit_emitted (a : PureAdapter) (options : Options) (active : ℕ) (table : Table)
    (polls : ℕ) (t : Transition) (hs : table.stop = none) (hb : BestBelow table) :
    Emitted a options active t table
      (Table.searchEmit a.toAdapter options active table polls (some t)) := by
  unfold Table.searchEmit Table.emitGuarded
  simp only [hs, Option.isSome_none, Bool.false_eq_true, if_false]
  generalize hpoll : pollCancelled a.toAdapter polls = poll
  by_cases hc : poll.1 = true
  · rw [if_pos hc]
    refine Emitted.halt hb (.cancelled ?_) poll.2
    intro hnone
    rw [← hpoll] at hc
    simp [pollCancelled, PureAdapter.toAdapter, hnone] at hc
  rw [if_neg hc]
  by_cases hmax : spent options.maxTransitions table.metrics.examinedTransitions = true
  · rw [if_pos hmax]
    exact Emitted.halt hb (.limit fun h => spent_ne_zero hmax h.2.2.1) poll.2
  rw [if_neg hmax]
  have hem := emitSearch_emitted a options active table.countExamined poll.2 t hs hb
  exact ⟨hem.best, hem.cases⟩

/-- Nothing is emitted to a search that has been stopped. -/
theorem enumerate_stopped (a : PureAdapter) (emit : Table → ℕ → Option Transition → Bool × Table × ℕ)
    (hemit : ∀ table polls t, table.stop.isSome = true → emit table polls t = (false, table, polls))
    (state : StateId) (ts : List Transition) (table : Table) (polls : ℕ)
    (h : table.stop.isSome = true) : ((a.enumerate state ts polls).run emit table).2.1 = table := by
  induction ts generalizing polls with
  | nil => rfl
  | cons t ts ih =>
    simp only [PureAdapter.enumerate, Enumeration.run, hemit table polls (some t) h, Bool.false_or]
    split_ifs
    · exact ih polls
    · rfl

theorem searchEmit_stopped {σ : Type} (adapter : Adapter σ) (options : Options) (active : ℕ)
    (table : Table) (world : σ) (t : Option Transition) (h : table.stop.isSome = true) :
    Table.searchEmit adapter options active table world t = (false, table, world) := by
  unfold Table.searchEmit Table.emitGuarded
  rw [if_pos h]

/-- The transitions of a list that are emitted with success, up to the first one that is
refused. -/
def PureAdapter.accepted (a : PureAdapter) (options : Options) (active : ℕ) :
    List Transition → Table → ℕ → List Transition
  | [], _, _ => []
  | t :: ts, table, polls =>
    let e := Table.searchEmit a.toAdapter options active table polls (some t)
    if e.1 then t :: a.accepted options active ts e.2.1 e.2.2 else []

/-- The transitions of a state are relaxed in order, up to the point where the search is
stopped. -/
theorem enumerate_relaxes (a : PureAdapter) (options : Options) (active : ℕ) (state : StateId)
    (ts : List Transition) (table : Table) (polls : ℕ) (r : Bool × Table × ℕ)
    (hr : (a.enumerate state ts polls).run (Table.searchEmit a.toAdapter options active) table = r)
    (hs : table.stop = none) (hb : BestBelow table) :
    BestBelow r.2.1 ∧
    RelaxAll a options.algorithm active (a.accepted options active ts table polls) table.nodes
      r.2.1.nodes ∧
    ((r.1 = a.enumerated state ∧ r.2.1.stop = none ∧ a.accepted options active ts table polls = ts) ∨
    (Halted a options r.2.1 ∧ ∃ rest, ts = a.accepted options active ts table polls ++ rest)) := by
  induction ts generalizing table polls with
  | nil =>
    subst hr
    exact ⟨hb, RelaxAll.nil _, Or.inl ⟨rfl, hs, rfl⟩⟩
  | cons t ts ih =>
    have hem := searchEmit_emitted a options active table polls t hs hb
    simp only [PureAdapter.enumerate, Enumeration.run] at hr
    simp only [PureAdapter.accepted]
    generalize Table.searchEmit a.toAdapter options active table polls (some t) = e at hem hr ⊢
    rcases hem.cases with ⟨hflag, hhalt, hnodes⟩ | ⟨hflag, hstop, hrelax⟩
    · have hlast : r.2.1 = e.2.1 := by
        rw [hflag, Bool.false_or] at hr
        rw [← hr]
        split_ifs
        · exact enumerate_stopped a _ (fun table polls t h =>
            searchEmit_stopped a.toAdapter options active table polls t h) state ts e.2.1 e.2.2
            hhalt.isSome
        · rfl
      rw [hlast, if_neg (by rw [hflag]; decide), hnodes]
      exact ⟨hem.best, RelaxAll.nil _, Or.inr ⟨hhalt, t :: ts, rfl⟩⟩
    · rw [hflag, Bool.true_or, if_pos rfl] at hr
      rw [if_pos hflag]
      obtain ⟨hbest, hall, hcases⟩ := ih e.2.1 e.2.2 hr hstop hem.best
      refine ⟨hbest, RelaxAll.cons t _ _ _ _ hrelax hall, ?_⟩
      rcases hcases with ⟨hend, hstop', heq⟩ | ⟨hhalt, rest, heq⟩
      · exact Or.inl ⟨hend, hstop', congrArg (t :: ·) heq⟩
      · exact Or.inr ⟨hhalt, rest, congrArg (t :: ·) heq⟩

/-- The nodes after node `i` has been closed. -/
def closeAt (nodes : List PfNode) (i : ℕ) : List PfNode :=
  nodes.set i { nodeAt nodes i with closed := true }

/-- A whole expansion: all the transitions of node `i` are relaxed. -/
structure Expands (a : PureAdapter) (algorithm : Algorithm) (i : ℕ) (nodes nodes' : List PfNode) :
    Prop where
  next : IsNext nodes i
  noGoal : a.goal (nodeAt nodes i).state = false
  relaxed : RelaxAll a algorithm i (a.transitions (nodeAt nodes i).state) (closeAt nodes i) nodes'

/-- An expansion that was cut short after some transitions, or none at all. -/
inductive Interrupted (a : PureAdapter) (algorithm : Algorithm) (nodes : List PfNode) :
    List PfNode → Option (ℕ × List Transition) → Prop where
  | before : Interrupted a algorithm nodes nodes none
  | during (i : ℕ) (nodes' : List PfNode) (hnext : IsNext nodes i)
      (hgoal : a.goal (nodeAt nodes i).state = false) (done rest : List Transition)
      (htrans : a.transitions (nodeAt nodes i).state = done ++ rest)
      (hrelax : RelaxAll a algorithm i done (closeAt nodes i) nodes') :
      Interrupted a algorithm nodes nodes' (some (i, done))

/-- The arguments with which a search calls `pf_finish_search`, the node whose expansion was
cut short with the transitions that it emitted, and the number of polls. -/
structure FinishCall where
  table : Table
  status : Status
  termination : Termination
  node : Option ℕ := none
  cut : Option (ℕ × List Transition) := none
  polls : ℕ

def FinishCall.finish (call : FinishCall) (options : Options) : Option (SearchResult × ℕ) :=
  (call.table.finish options call.status call.termination call.node).map (·, call.polls)

/-- The round of a search with a pure adapter, up to the call of `pf_finish_search`. -/
def PureAdapter.searchRound (a : PureAdapter) (options : Options) :
    Table × ℕ → (Table × ℕ) ⊕ FinishCall
  | (table, polls) =>
    match nextOpen table.nodes with
    | none => .inr { table := table, status := .noPath, termination := .exhausted, polls := polls }
    | some i =>
      let poll := pollCancelled a.toAdapter polls
      if poll.1 then
        .inr { table := table, status := .cancelled, termination := .cancelled, polls := poll.2 }
      else if a.goal (nodeAt table.nodes i).state then
        .inr { table := table, status := .found, termination := .goal, node := some i
               polls := poll.2 }
      else if spent options.maxExpanded table.metrics.expanded then
        .inr { table := table, status := .limitReached, termination := .limit, polls := poll.2 }
      else
        let expanded := (table.close i).expand (Table.searchEmit a.toAdapter options i)
          (fun polls state => a.enumerate state (a.transitions state) polls) poll.2 i
        match expanded.1.stop with
        | some (status, termination) =>
          .inr { table := expanded.1, status := status, termination := termination
                 cut := some (i, a.accepted options i
                  (a.transitions (nodeAt table.nodes i).state) (table.close i) poll.2)
                 polls := expanded.2 }
        | none => .inl expanded

/-- How a search with a pure adapter calls `pf_finish_search`. -/
def PureAdapter.finishCall (a : PureAdapter) (options : Options) (start : StateId)
    (fuel polls : ℕ) : Option FinishCall :=
  FuelLoop.run (a.searchRound options) fuel (Table.start a.toAdapter options polls start)

theorem searchRound_eq (a : PureAdapter) (options : Options) (s : Table × ℕ) :
    Table.searchRound a.toAdapter options
      (fun polls state => a.enumerate state (a.transitions state) polls)
      (fun polls state => (a.goal state, polls)) s =
    (a.searchRound options s).map id (·.finish options) := by
  obtain ⟨table, polls⟩ := s
  unfold PureAdapter.searchRound Table.searchRound
  dsimp only
  cases nextOpen table.nodes with
  | none => rfl
  | some i =>
    dsimp only
    generalize pollCancelled a.toAdapter polls = poll
    split_ifs
    · rfl
    · rfl
    · rfl
    · generalize (table.close i).expand (Table.searchEmit a.toAdapter options i) _ poll.2 i = e
      cases e.1.stop <;> rfl

theorem search_toAdapter (a : PureAdapter) (options : Options) (start : StateId) (fuel polls : ℕ) :
    Table.search fuel (some a.toAdapter) start options polls =
      if pfValidInput a.toAdapter options then
        (a.finishCall options start fuel polls).bind (·.finish options)
      else some ({ status := .invalidInput, termination := .invalidInput }, polls) := by
  show (if _ then (FuelLoop.run _ fuel _).join else _) = _
  rw [FuelLoop.run_map _ _ _ (searchRound_eq a options) fuel _]
  unfold PureAdapter.finishCall
  cases FuelLoop.run (a.searchRound options) fuel (Table.start a.toAdapter options polls start) <;>
    rfl

/-- How a round of a search with a pure adapter can end. -/
inductive RoundResult (a : PureAdapter) (options : Options) (table : Table) :
    (Table × ℕ) ⊕ FinishCall → Prop where
  | continues (i : ℕ) (next : Table) (polls : ℕ)
      (hexp : Expands a options.algorithm i table.nodes next.nodes)
      (hstop : next.stop = none) (hbest : BestBelow next) :
      RoundResult a options table (.inl (next, polls))
  | found (i : ℕ) (polls : ℕ) (hnext : IsNext table.nodes i)
      (hgoal : a.goal (nodeAt table.nodes i).state = true) :
      RoundResult a options table (.inr {
        table := table, status := .found, termination := .goal, node := some i, polls := polls })
  | exhausted (polls : ℕ) (hnone : nextOpen table.nodes = none) :
      RoundResult a options table (.inr {
        table := table, status := .noPath, termination := .exhausted, polls := polls })
  | halted (last : Table) (cut : Option (ℕ × List Transition)) (polls : ℕ) (status : Status)
      (termination : Termination) (hreason : StopReason a options status termination)
      (hbest : BestBelow last)
      (hcut : Interrupted a options.algorithm table.nodes last.nodes cut) :
      RoundResult a options table (.inr {
        table := last, status := status, termination := termination, cut := cut, polls := polls })

theorem cancelled_of_poll {a : PureAdapter} {polls : ℕ}
    (h : (pollCancelled a.toAdapter polls).1 = true) : a.cancelled ≠ none := by
  intro hnone
  simp [pollCancelled, PureAdapter.toAdapter, hnone] at h

/-- Inversion of a round: everything that it can do to the nodes. -/
theorem searchRound_result (a : PureAdapter) (options : Options) (table : Table) (polls : ℕ)
    (hs : table.stop = none) (hb : BestBelow table) :
    RoundResult a options table (a.searchRound options (table, polls)) := by
  unfold PureAdapter.searchRound
  dsimp only
  cases hn : nextOpen table.nodes with
  | none => exact RoundResult.exhausted polls hn
  | some i =>
    have hnext := nextOpen_isNext _ _ hn
    dsimp only
    generalize hpoll : pollCancelled a.toAdapter polls = poll
    by_cases hc : poll.1 = true
    · rw [if_pos hc]
      refine RoundResult.halted table none poll.2 _ _ (.cancelled ?_) hb .before
      rw [← hpoll] at hc
      exact cancelled_of_poll hc
    rw [if_neg hc]
    cases hgoal : a.goal (nodeAt table.nodes i).state with
    | true => exact RoundResult.found i poll.2 hnext hgoal
    | false =>
      simp only [Bool.false_eq_true, if_false]
      by_cases hmax : spent options.maxExpanded table.metrics.expanded = true
      · rw [if_pos hmax]
        exact RoundResult.halted table none poll.2 _ _ (.limit fun h => spent_ne_zero hmax h.1) hb
          .before
      rw [if_neg hmax]
      have hclose : (table.close i).nodes = closeAt table.nodes i := rfl
      have hbc : BestBelow (table.close i) := by
        intro j hj
        rw [hclose, closeAt, List.length_set]
        exact hb j hj
      have hstate : (nodeAt (table.close i).nodes i).state = (nodeAt table.nodes i).state := by
        simp [hclose, closeAt, nodeAt, hnext.1.1]
      obtain ⟨hbest, hall, hcases⟩ := enumerate_relaxes a options i (nodeAt table.nodes i).state
        (a.transitions (nodeAt table.nodes i).state) (table.close i) poll.2 _ rfl hs hbc
      unfold Table.expand
      rw [hstate]
      generalize (a.enumerate (nodeAt table.nodes i).state
        (a.transitions (nodeAt table.nodes i).state) poll.2).run
        (Table.searchEmit a.toAdapter options i) (table.close i) = r at hbest hall hcases ⊢
      generalize a.accepted options i _ (table.close i) poll.2 = done at hall hcases ⊢
      dsimp only
      rcases hcases with ⟨hend, hstop, rfl⟩ | ⟨⟨status, termination, hst, hreason⟩, rest, htrans⟩
      · cases he : r.1 with
        | true =>
          simp only [Bool.not_true, Bool.false_and, Bool.false_eq_true, if_false, hstop]
          exact RoundResult.continues i r.2.1 r.2.2 ⟨hnext, hgoal, hall⟩ hstop hbest
        | false =>
          have hfail : a.enumerated (nodeAt table.nodes i).state = false := by rw [← hend, he]
          simp only [Bool.not_false, Bool.true_and, hstop, Option.isNone_none, if_true]
          exact RoundResult.halted (r.2.1.stopWith .adapterError .adapterError) _ r.2.2 _ _
            (.failure _ hfail) hbest (.during i _ hnext hgoal _ [] (List.append_nil _).symm hall)
      · simp only [hst, Option.isNone_some, Bool.and_false, Bool.false_eq_true, if_false]
        exact RoundResult.halted r.2.1 _ r.2.2 status termination hreason hbest
          (.during i _ hnext hgoal done rest htrans hall)

end LibAtrinik.Pathfinding

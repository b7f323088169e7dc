import LibAtrinik.Discovery
import LibAtrinik.PathfindingOptimal

namespace LibAtrinik.Pathfinding

open Discovery LabelledWalk

variable {a : PureAdapter} {start : StateId} {options : Options}

def statesOf (nodes : List PfNode) : List StateId := nodes.map (·.state)

theorem findState_isSome (nodes : List PfNode) (state : StateId) :
    (findState nodes state).isSome = true ↔ state ∈ statesOf nodes := by
  constructor
  · intro h
    obtain ⟨i, hi⟩ := Option.isSome_iff_exists.mp h
    obtain ⟨hlt, hs⟩ := findState_eq_some _ _ _ hi
    refine List.mem_map.mpr ⟨nodes[i], List.getElem_mem hlt, ?_⟩
    simpa [nodeAt, hlt] using hs
  · intro h
    obtain ⟨node, hmem, hs⟩ := List.mem_map.mp h
    obtain ⟨i, hi, rfl⟩ := List.getElem_of_mem hmem
    by_contra hno
    have hnone : findState nodes state = none := by simpa using hno
    exact findState_eq_none _ _ hnone i hi (by simpa [nodeAt, hi] using hs)

/-- The traversal has been stopped. It has no costs that could overflow. -/
def Barred (a : PureAdapter) (options : Options) (table : Table) : Prop :=
  ∃ status termination, table.stop = some (status, termination) ∧
    StopReason a options status termination ∧ status ≠ .costOverflow

theorem Barred.isSome {table : Table} (h : Barred a options table) :
    table.stop.isSome = true := by
  obtain ⟨s, r, hs, _⟩ := h
  rw [hs]
  rfl

/-- What one emission to a running traversal comes to. -/
def Traversed (a : PureAdapter) (options : Options) (t : Transition) (table : Table)
    (r : Bool × Table × ℕ) : Prop :=
  (r.1 = false ∧ Barred a options r.2.1) ∨
    (r.1 = true ∧ r.2.1.stop = none ∧
      statesOf r.2.1.nodes = see (statesOf table.nodes) t.state)

theorem Traversed.halt {t : Transition} {table : Table} {status : Status}
    {termination : Termination} (h : StopReason a options status termination)
    (hc : status ≠ .costOverflow) (polls : ℕ) :
    Traversed a options t table (false, table.stopWith status termination, polls) :=
  Or.inl ⟨rfl, status, termination, rfl, h, hc⟩

theorem emitReachable_traversed (a : PureAdapter) (options : Options) (active : ℕ) (table : Table)
    (polls : ℕ) (t : Transition) (hs : table.stop = none) :
    Traversed a options t table ((table.emitReachable options active t).1,
      (table.emitReachable options active t).2, polls) := by
  unfold Table.emitReachable
  by_cases hf : (findState table.nodes t.state).isSome = true
  · rw [if_pos hf]
    refine Or.inr ⟨rfl, hs, ?_⟩
    unfold see
    rw [if_pos ((findState_isSome _ _).mp hf)]
  rw [if_neg hf]
  by_cases hgen : spent options.maxGenerated table.metrics.generated = true
  · rw [if_pos hgen]
    exact Traversed.halt (.limit fun h => spent_ne_zero hgen h.2.1) (by decide) polls
  rw [if_neg hgen]
  by_cases hfull : spent options.maxFrontier (table.nodes.length-table.metrics.expanded) = true
  · rw [if_pos hfull]
    exact Traversed.halt (.limit fun h => spent_ne_zero hfull h.2.2.2) (by decide) polls
  rw [if_neg hfull]
  refine Or.inr ⟨rfl, hs, ?_⟩
  unfold see
  rw [if_neg fun hmem => hf ((findState_isSome _ _).mpr hmem)]
  exact List.map_append

theorem reachableEmit_traversed (a : PureAdapter) (options : Options) (active : ℕ) (table : Table)
    (polls : ℕ) (t : Transition) (hs : table.stop = none) :
    Traversed a options t table
      (Table.reachableEmit a.toAdapter options active table polls (some t)) := by
  unfold Table.reachableEmit Table.emitGuarded
  simp only [hs, Option.isSome_none, Bool.false_eq_true, if_false]
  generalize hpoll : pollCancelled a.toAdapter polls = poll
  by_cases hc : poll.1 = true
  · rw [if_pos hc]
    rw [← hpoll] at hc
    exact Traversed.halt (.cancelled (cancelled_of_poll hc)) (by decide) poll.2
  rw [if_neg hc]
  by_cases hmax : spent options.maxTransitions table.metrics.examinedTransitions = true
  · rw [if_pos hmax]
    exact Traversed.halt (.limit fun h => spent_ne_zero hmax h.2.2.1) (by decide) poll.2
  rw [if_neg hmax]
  exact emitReachable_traversed a options active table.countExamined poll.2 t hs

theorem reachableEmit_stopped {σ : Type} (adapter : Adapter σ) (options : Options) (active : ℕ)
    (table : Table) (world : σ) (t : Option Transition) (h : table.stop.isSome = true) :
    Table.reachableEmit adapter options active table world t = (false, table, world) := by
  unfold Table.reachableEmit Table.emitGuarded
  rw [if_pos h]

/-- The targets of the transitions are seen in order, unless the traversal is stopped. -/
theorem enumerate_traverses (a : PureAdapter) (options : Options) (active : ℕ) (state : StateId)
    (ts : List Transition) (table : Table) (polls : ℕ) (r : Bool × Table × ℕ)
    (hr : (a.enumerate state ts polls).run (Table.reachableEmit a.toAdapter options active) table =
      r) (hs : table.stop = none) :
    (r.1 = a.enumerated state ∧ r.2.1.stop = none ∧
      statesOf r.2.1.nodes = ts.foldl (fun seen t => see seen t.state) (statesOf table.nodes)) ∨
    Barred a options r.2.1 := by
  induction ts generalizing table polls with
  | nil =>
    subst hr
    exact Or.inl ⟨rfl, hs, rfl⟩
  | cons t ts ih =>
    have hem := reachableEmit_traversed a options active table polls t hs
    simp only [PureAdapter.enumerate, Enumeration.run] at hr
    generalize Table.reachableEmit a.toAdapter options active table polls (some t) = e at hem hr
    rcases hem with ⟨hflag, hhalt⟩ | ⟨hflag, hstop, hstates⟩
    · right
      have hlast : r.2.1 = e.2.1 := by
        rw [hflag, Bool.false_or] at hr
        rw [← hr]
        split_ifs
        · exact enumerate_stopped a _ (fun table polls t h =>
            reachableEmit_stopped a.toAdapter options active table polls t h) state ts e.2.1 e.2.2
            hhalt.isSome
        · rfl
      rw [hlast]
      exact hhalt
    · rw [hflag, Bool.true_or, if_pos rfl] at hr
      rcases ih e.2.1 e.2.2 hr hstop with ⟨hend, hstop', hall⟩ | hhalt
      · refine Or.inl ⟨hend, hstop', ?_⟩
        rw [hall, hstates]
        rfl
      · exact Or.inr hhalt

/-- The round of a traversal with a pure adapter. -/
def PureAdapter.reachableRound (a : PureAdapter) (options : Options) :
    ℕ × Table × ℕ → (ℕ × Table × ℕ) ⊕ (ReachabilityResult × ℕ) :=
  Table.reachableRound a.toAdapter options
    (fun polls state => a.enumerate state (a.transitions state) polls)

/-- How a round of a traversal can end. -/
inductive TraversalResult (a : PureAdapter) (options : Options) (cursor : ℕ) (table : Table) :
    (ℕ × Table × ℕ) ⊕ (ReachabilityResult × ℕ) → Prop where
  | continues (u : StateId) (next : Table) (polls : ℕ)
      (hu : (statesOf table.nodes)[cursor]? = some u) (hstop : next.stop = none)
      (hstates : statesOf next.nodes =
        (a.transitions u).foldl (fun seen t => see seen t.state) (statesOf table.nodes)) :
      TraversalResult a options cursor table (.inl (cursor+1, next, polls))
  | complete (polls : ℕ) (hend : table.nodes.length ≤ cursor) :
      TraversalResult a options cursor table (.inr (table.finishReachable, polls))
  | halted (last : Table) (polls : ℕ) (hhalt : Barred a options last) :
      TraversalResult a options cursor table (.inr (last.finishReachable, polls))

theorem reachableRound_result (a : PureAdapter) (options : Options) (cursor : ℕ) (table : Table)
    (polls : ℕ) (hs : table.stop = none) :
    TraversalResult a options cursor table (a.reachableRound options (cursor, table, polls)) := by
  unfold PureAdapter.reachableRound Table.reachableRound
  dsimp only
  by_cases hcur : cursor < table.nodes.length
  swap
  · rw [if_neg hcur]
    exact TraversalResult.complete polls (by omega)
  rw [if_pos hcur]
  generalize hpoll : pollCancelled a.toAdapter polls = poll
  by_cases hc : poll.1 = true
  · rw [if_pos hc]
    rw [← hpoll] at hc
    exact TraversalResult.halted (table.stopWith .cancelled .cancelled) poll.2
      ⟨_, _, rfl, .cancelled (cancelled_of_poll hc), by decide⟩
  rw [if_neg hc]
  by_cases hmax : spent options.maxExpanded table.metrics.expanded = true
  · rw [if_pos hmax]
    exact TraversalResult.halted (table.stopWith .limitReached .limit) poll.2
      ⟨_, _, rfl, .limit fun h => spent_ne_zero hmax h.1, by decide⟩
  rw [if_neg hmax]
  let counted : Table := { table with metrics := { table.metrics with
    expanded := table.metrics.expanded+1 } }
  have hu : (statesOf table.nodes)[cursor]? = some (nodeAt table.nodes cursor).state := by
    simp [statesOf, nodeAt, hcur]
  have hrun := enumerate_traverses a options cursor (nodeAt table.nodes cursor).state
    (a.transitions (nodeAt table.nodes cursor).state) counted poll.2 _ rfl hs
  unfold Table.expand
  show TraversalResult a options cursor table (if (if _ then _ else _ : Table × ℕ).1.stop.isSome
    then _ else _)
  generalize (a.enumerate (nodeAt table.nodes cursor).state
    (a.transitions (nodeAt table.nodes cursor).state) poll.2).run
    (Table.reachableEmit a.toAdapter options cursor) counted = r at hrun ⊢
  dsimp only
  rcases hrun with ⟨hend, hstop, hstates⟩ | ⟨status, termination, hst, hreason⟩
  · cases he : r.1 with
    | true =>
      simp only [Bool.not_true, Bool.false_and, Bool.false_eq_true, if_false, hstop,
        Option.isSome_none]
      exact TraversalResult.continues _ r.2.1 r.2.2 hu hstop hstates
    | false =>
      have hfail : a.enumerated (nodeAt table.nodes cursor).state = false := by rw [← hend, he]
      simp only [Bool.not_false, Bool.true_and, hstop, Option.isNone_none, if_true]
      exact TraversalResult.halted (r.2.1.stopWith .adapterError .adapterError) r.2.2
        ⟨_, _, rfl, .failure _ hfail, by decide⟩
  · simp only [hst, Option.isNone_some, Bool.and_false, Bool.false_eq_true, if_false,
      Option.isSome_some, if_true]
    exact TraversalResult.halted r.2.1 r.2.2 ⟨status, termination, hst, hreason⟩

/-- The traversal of a pure adapter has explored the graph up to its cursor. -/
abbrev PureAdapter.Explored (a : PureAdapter) (start : StateId) (table : Table) (cursor : ℕ) :
    Prop :=
  Discovery.Explored a.transitions Transition.state start (statesOf table.nodes) cursor []

theorem explored_round (cursor : ℕ) (table : Table) (polls : ℕ) (next : ℕ × Table × ℕ)
    (hs : table.stop = none) (hex : a.Explored start table cursor)
    (hnext : a.reachableRound options (cursor, table, polls) = .inl next) :
    next.1 = cursor+1 ∧ next.2.1.stop = none ∧ a.Explored start next.2.1 next.1 := by
  have hround := reachableRound_result a options cursor table polls hs
  rw [hnext] at hround
  cases hround with
  | continues u next polls hu hstop hstates =>
    refine ⟨rfl, hstop, ?_⟩
    have hall := hex.seeAll (a.transitions u) hu (fun t ht => ht)
    rw [List.nil_append] at hall
    have hu' : ((a.transitions u).foldl (fun seen t => see seen t.state)
        (statesOf table.nodes))[cursor]? = some u := by
      generalize a.transitions u = ts
      generalize statesOf table.nodes = queue at hu ⊢
      clear hall hstates
      induction ts generalizing queue with
      | nil => exact hu
      | cons t ts ih => exact ih _ (see_getElem? queue t.state cursor u hu)
    unfold PureAdapter.Explored
    rw [hstates]
    exact hall.advance hu'

/-- The cursor and the table with which a traversal begins. -/
def traversalStart (start : StateId) (polls : ℕ) : ℕ × Table × ℕ :=
  (0, { nodes := [{ state := start }], metrics := { generated := 1, peakFrontier := 1 } }, polls)

theorem reachable_toAdapter (a : PureAdapter) (options : Options) (start : StateId)
    (fuel polls : ℕ) :
    Table.reachable fuel (some a.toAdapter) start options polls =
      FuelLoop.run (a.reachableRound options) fuel (traversalStart start polls) := rfl

/-- Where a traversal is left: with everything explored, or stopped for a reason. -/
theorem reachable_last (a : PureAdapter) (options : Options) (start : StateId)
    (fuel polls polls' : ℕ) (r : ReachabilityResult)
    (h : Table.reachable fuel (some a.toAdapter) start options polls = some (r, polls')) :
    (∃ table, a.Explored start table table.nodes.length ∧ table.stop = none ∧
      r = table.finishReachable) ∨ ∃ last, Barred a options last ∧ r = last.finishReachable := by
  rw [reachable_toAdapter] at h
  obtain ⟨⟨cursor, table, polls''⟩, ⟨hs, hex⟩, hlast⟩ := FuelLoop.run_invariant
    (a.reachableRound options) (fun s => s.2.1.stop = none ∧ a.Explored start s.2.1 s.1)
    (by
      rintro ⟨cursor, table, polls⟩ next ⟨hs, hex⟩ hnext
      exact (explored_round cursor table polls next hs hex hnext).2)
    fuel (traversalStart start polls) _ ⟨rfl, explored_start a.transitions Transition.state start⟩ h
  have hround := reachableRound_result a options cursor table polls'' hs
  rw [hlast] at hround
  cases hround with
  | complete polls hend =>
    left
    refine ⟨table, ?_, hs, rfl⟩
    have hb : cursor ≤ (statesOf table.nodes).length := hex.bound
    have hlen : (statesOf table.nodes).length = table.nodes.length := List.length_map _
    obtain rfl : cursor = table.nodes.length := by omega
    exact hex
  | halted last polls hhalt => exact Or.inr ⟨last, hhalt, rfl⟩

/-- There are no more distinct states than 64-bit numbers. -/
theorem nodup_states_length (states : List StateId) (h : states.Nodup) : states.length ≤ 2^64 := by
  have hnat : (states.map UInt64.toNat).Nodup :=
    h.map fun x y hxy => UInt64.toNat_inj.mp hxy
  have hsub : (states.map UInt64.toNat).toFinset ⊆ Finset.range (2^64) := by
    intro n hn
    obtain ⟨s, _, rfl⟩ := List.mem_map.mp (List.mem_toFinset.mp hn)
    exact Finset.mem_range.mpr (UInt64.toNat_lt s)
  have hcard := Finset.card_le_card hsub
  rw [List.toFinset_card_of_nodup hnat, Finset.card_range, List.length_map] at hcard
  exact hcard

/-- A traversal always comes back. -/
theorem reachable_terminates (a : PureAdapter) (options : Options) (start : StateId)
    (polls fuel : ℕ) (hfuel : 2^64 < fuel) :
    ∃ out, Table.reachable fuel (some a.toAdapter) start options polls = some out := by
  rw [reachable_toAdapter]
  refine FuelLoop.run_terminates (a.reachableRound options)
    (fun s => s.2.1.stop = none ∧ a.Explored start s.2.1 s.1) (fun s => 2^64-s.1) ?_ fuel
    (traversalStart start polls) ⟨rfl, explored_start a.transitions Transition.state start⟩ hfuel
  rintro ⟨cursor, table, polls⟩ next ⟨hs, hex⟩ hnext
  obtain ⟨hcur, hstop, hex'⟩ := explored_round cursor table polls next hs hex hnext
  refine ⟨⟨hstop, hex'⟩, ?_⟩
  have hlen := nodup_states_length _ hex'.nodup
  have hb := hex'.bound
  show 2^64-next.1 < 2^64-cursor
  omega

end LibAtrinik.Pathfinding

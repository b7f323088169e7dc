import LibAtrinik.PathfindingOptimal
import LibAtrinik.PathfindingComplete
import LibAtrinik.PathfindingCounters

namespace LibAtrinik.Pathfinding

open LabelledWalk

variable {a : PureAdapter} {algorithm : Algorithm} {start : StateId} {nodes nodes' : List PfNode}
  {t : Transition}

/-- The heuristic falls by no more than a transition costs, and vanishes at the goals. -/
structure PureAdapter.Consistent (a : PureAdapter) : Prop where
  step : ∀ heuristic, a.heuristic = some heuristic → ∀ s, ∀ t ∈ a.transitions s,
    (heuristic s).toNat ≤ t.cost.toNat+(heuristic t.state).toNat
  goal : ∀ heuristic, a.heuristic = some heuristic → ∀ s, a.goal s = true →
    (heuristic s).toNat = 0

/-- Along a walk too, the heuristic falls by no more than the walk costs. -/
theorem PureAdapter.Consistent.walk (h : a.Consistent) {heuristic : StateId → UInt64}
    (hh : a.heuristic = some heuristic) (ts : List Transition) (s g : StateId)
    (hw : a.Walk s ts g) :
    (heuristic s).toNat ≤ cost (fun t => t.cost.toNat) ts+(heuristic g).toNat := by
  induction ts generalizing s with
  | nil =>
    obtain rfl : s = g := hw
    exact Nat.le_add_left _ _
  | cons t ts ih =>
    obtain ⟨ht, hrest⟩ := hw
    have hstep := h.step heuristic hh s t ht
    have hrest' := ih t.state hrest
    rw [cost_cons]
    omega

theorem PureAdapter.Consistent.admissible (h : a.Consistent) : a.Admissible := by
  intro heuristic hh s ts g hw hg
  have hle := h.walk hh ts s g hw
  rwa [h.goal heuristic hh g hg, Nat.add_zero] at hle

/-- What the algorithm adds to the costs falls by no more than a transition costs. -/
def PureAdapter.Monotone (a : PureAdapter) (algorithm : Algorithm) : Prop :=
  algorithm ≠ .greedyBestFirst ∧ (algorithm = .astar → a.Consistent)

theorem PureAdapter.Monotone.priority_le (h : a.Monotone algorithm) {s : StateId}
    (ht : t ∈ a.transitions s) (c : ℕ) (hroom : c+stepCost algorithm t ≤ uint64Max) :
    pfPriority algorithm c (a.score algorithm s) ≤
      pfPriority algorithm (c+stepCost algorithm t) (a.score algorithm t.state) := by
  unfold pfPriority
  rw [if_neg h.1, if_neg h.1]
  by_cases hastar : algorithm = .astar
  · have hstep : stepCost algorithm t = t.cost.toNat := by
      rw [stepCost, hastar]
      rfl
    have hscore : a.score algorithm s ≤ t.cost.toNat+a.score algorithm t.state := by
      unfold PureAdapter.score
      rw [if_pos (Or.inl hastar), if_pos (Or.inl hastar)]
      cases hh : a.heuristic with
      | none => exact Nat.zero_le _
      | some heuristic => exact (h.2 hastar).step heuristic hh s t ht
    rw [hstep] at hroom ⊢
    simp only [hastar, true_and, if_true] at hscore ⊢
    split_ifs <;> omega
  · simp only [hastar, false_and, if_false]
    exact Nat.le_add_right _ _

/-- A priority that does not rise above the present one, below the largest cost, belongs to a
cost that is no lower. -/
theorem cost_le_of_priority (halg : algorithm ≠ .greedyBestFirst) {c c' p heuristic : ℕ}
    (hroom : algorithm = .astar → p < uint64Max) (hle : pfPriority algorithm c heuristic ≤ p)
    (hnew : p ≤ pfPriority algorithm c' heuristic) : c ≤ c' := by
  unfold pfPriority at hle hnew
  rw [if_neg halg] at hle hnew
  by_cases hastar : algorithm = .astar
  · have hlt := hroom hastar
    simp only [hastar, true_and, if_true] at hle hnew
    split_ifs at hle hnew <;> omega
  · simp only [hastar, false_and, if_false] at hle hnew
    exact hle.trans hnew

/-- The nodes that have been closed. -/
def closedCount (nodes : List PfNode) : ℕ :=
  ((Finset.range nodes.length).filter fun i => (nodeAt nodes i).closed = true).card

theorem closedCount_closeAt (i : ℕ) (h : IsOpen nodes i) :
    closedCount (closeAt nodes i) = closedCount nodes+1 := by
  unfold closedCount
  have hinsert : (Finset.range (closeAt nodes i).length).filter
      (fun j => (nodeAt (closeAt nodes i) j).closed = true) =
      insert i ((Finset.range nodes.length).filter fun j => (nodeAt nodes j).closed = true) := by
    ext j
    simp only [Finset.mem_filter, Finset.mem_range, Finset.mem_insert, closeAt_length,
      nodeAt_closeAt nodes i j h.1]
    by_cases hji : j = i
    · subst hji
      simp [h.1]
    · simp [hji]
  rw [hinsert, Finset.card_insert_of_notMem]
  simp [h.2]

/-- Writing a node that is not closed closes and opens none. -/
theorem Written.closedCount_eq {k active : ℕ} (h : Written a algorithm active t nodes nodes' k)
    (hk : k < nodes.length → (nodeAt nodes k).closed = false) :
    closedCount nodes' = closedCount nodes := by
  unfold closedCount
  congr 1
  ext j
  simp only [Finset.mem_filter, Finset.mem_range, h.node]
  by_cases hjk : j = k
  · subst hjk
    rw [if_pos rfl]
    refine ⟨fun hno => absurd hno.2 Bool.false_ne_true, fun hno => ?_⟩
    rw [hk hno.1] at hno
    exact absurd hno.2 Bool.false_ne_true
  · rw [if_neg hjk, h.length]
    have hle := h.le
    constructor
    · rintro ⟨hj, hc⟩
      exact ⟨by omega, hc⟩
    · rintro ⟨hj, hc⟩
      exact ⟨by omega, hc⟩

/-- The nodes that have left the frontier have priorities up to `p`, the others from `p` on. -/
structure Levelled (nodes : List PfNode) (p : ℕ) : Prop where
  closed_le : ∀ i < nodes.length, (nodeAt nodes i).closed = true → (nodeAt nodes i).priority ≤ p
  le_open : ∀ i, IsOpen nodes i → p ≤ (nodeAt nodes i).priority

variable {p c : ℕ} {ts done : List Transition}

/-- A transition from a node of priority `p` makes no closed node cheaper. -/
theorem Midway.relax_levelled (h : Midway a algorithm start nodes c ts)
    (hmono : a.Monotone algorithm) (hp : (nodeAt nodes c).priority = p)
    (hroom : algorithm = .astar → p < uint64Max) (hl : Levelled nodes p)
    (ht : t ∈ a.transitions (nodeAt nodes c).state) (hr : Relax a algorithm c t nodes nodes') :
    Levelled nodes' p ∧ closedCount nodes' = closedCount nodes ∧
      (nodeAt nodes' c).priority = p := by
  have hs := h.toSound
  rcases hr.written hs with ⟨rfl, _⟩ | ⟨k, hw⟩
  · exact ⟨hl, rfl, hp⟩
  have hnew : p ≤ pfPriority algorithm ((nodeAt nodes c).cost+stepCost algorithm t)
      (a.score algorithm t.state) := by
    rw [← hp, hs.priority c h.bound, hs.heuristic c h.bound]
    have hmax := hs.bounded c h.bound
    have hfits := hw.room
    exact hmono.priority_le ht _ (by omega)
  have hk : k < nodes.length → (nodeAt nodes k).closed = false := by
    intro hlt
    by_contra hclosed
    have hold := hl.closed_le k hlt (by simpa using hclosed)
    rcases hw.better with ⟨heq, _⟩ | ⟨_, hstate, hcheaper⟩
    · omega
    · -- its priority would have fallen below `p`
      rw [hs.priority k hlt, hs.heuristic k hlt, hstate] at hold
      exact absurd hcheaper (not_lt.mpr (cost_le_of_priority hmono.1 hroom hold hnew))
  refine ⟨⟨?_, ?_⟩, hw.closedCount_eq hk, ?_⟩
  · intro i hi hclosed
    rw [hw.node] at hclosed ⊢
    by_cases hik : i = k
    · rw [if_pos hik] at hclosed
      cases hclosed
    · rw [if_neg hik] at hclosed ⊢
      exact hl.closed_le i (hw.old hi hik) hclosed
  · rintro i ⟨hi, hopen⟩
    rw [hw.node] at hopen ⊢
    by_cases hik : i = k
    · rw [if_pos hik]
      exact hnew
    · rw [if_neg hik] at hopen ⊢
      exact hl.le_open i ⟨hw.old hi hik, hopen⟩
  · rw [hw.node, if_neg (hw.ne_active h.bound).symm]
    exact hp

theorem Midway.relaxAll_levelled (h : Midway a algorithm start nodes c done)
    (hmono : a.Monotone algorithm) (hp : (nodeAt nodes c).priority = p)
    (hroom : algorithm = .astar → p < uint64Max) (hl : Levelled nodes p)
    (hts : ∀ t ∈ ts, t ∈ a.transitions (nodeAt nodes c).state)
    (hr : RelaxAll a algorithm c ts nodes nodes') :
    Levelled nodes' p ∧ closedCount nodes' = closedCount nodes := by
  induction hr generalizing done with
  | nil nodes => exact ⟨hl, rfl⟩
  | cons t ts nodes mid nodes' hr _ ih =>
    have ht := hts t List.mem_cons_self
    obtain ⟨hmid, hstate⟩ := h.relax ht hr
    obtain ⟨hl', hcount, hp'⟩ := h.relax_levelled hmono hp hroom hl ht hr
    obtain ⟨hend, hcount'⟩ := ih hmid hp' hl' fun t' ht' => by
      rw [hstate]
      exact hts t' (List.mem_cons_of_mem t ht')
    exact ⟨hend, hcount'.trans hcount⟩

theorem IsNext.priority_le {i j : ℕ} (h : IsNext nodes i) (hj : IsOpen nodes j) :
    (nodeAt nodes i).priority ≤ (nodeAt nodes j).priority := by
  have hkey := h.2 j hj.1 hj
  unfold nodeKey at hkey
  rcases Prod.Lex.toLex_le_toLex.mp hkey with hlt | ⟨heq, _⟩
  · exact Nat.le_of_lt hlt
  · exact Nat.le_of_eq heq

/-- Closing the next node raises the level to its priority. -/
theorem Levelled.close {i : ℕ} (h : Levelled nodes p) (hnext : IsNext nodes i) :
    Levelled (closeAt nodes i) (nodeAt nodes i).priority := by
  have hi := hnext.1.1
  have hpriority (j : ℕ) : (nodeAt (closeAt nodes i) j).priority = (nodeAt nodes j).priority := by
    rw [nodeAt_closeAt nodes i j hi]
    split_ifs with hji
    · rw [hji]
    · rfl
  constructor
  · intro j hj hclosed
    rw [closeAt_length] at hj
    rw [hpriority]
    rw [nodeAt_closeAt nodes i j hi] at hclosed
    by_cases hji : j = i
    · rw [hji]
    · rw [if_neg hji] at hclosed
      exact (h.closed_le j hj hclosed).trans (h.le_open i hnext.1)
  · rintro j ⟨hj, hopen⟩
    rw [closeAt_length] at hj
    rw [hpriority]
    rw [nodeAt_closeAt nodes i j hi] at hopen
    by_cases hji : j = i
    · rw [hji]
    · rw [if_neg hji] at hopen
      exact hnext.priority_le ⟨hj, hopen⟩

/-- A goal within the range of costs keeps the next node's priority within it. -/
theorem Coherent.priority_lt_of_goal (h : Coherent a algorithm start nodes) (hadm : a.Admissible)
    (halg : algorithm ≠ .greedyBestFirst) {i n : ℕ} (hnext : IsNext nodes i)
    (hn : n ∈ a.goalCosts (stepCost algorithm) start) (hlt : n < uint64Max) :
    (nodeAt nodes i).priority < uint64Max := by
  obtain ⟨ts, g, hw, hg, rfl⟩ := hn
  obtain ⟨front, back, m, j, rfl, hback, ho, hstate, hcost⟩ := h.crosses ts g hw hg
  have hscore := score_le hadm m g back hback hg halg
  rw [cost_append] at hlt
  calc (nodeAt nodes i).priority ≤ (nodeAt nodes j).priority := hnext.priority_le ho
    _ ≤ cost (stepCost algorithm) front+cost (stepCost algorithm) back := by
      rw [h.priority j ho.1, h.heuristic j ho.1, hstate]
      exact Pathfinding.priority_le _ _ _ (by omega) (by omega) halg
    _ < uint64Max := hlt

/-- So does a walk to the next node's own state that stays within it with the heuristic. -/
theorem Coherent.priority_lt_of_walk (h : Coherent a .astar start nodes) (hcons : a.Consistent)
    {i : ℕ} (hnext : IsNext nodes i) (ts : List Transition)
    (hw : a.Walk start ts (nodeAt nodes i).state)
    (hlt : cost (stepCost .astar) ts+a.score .astar (nodeAt nodes i).state < uint64Max) :
    (nodeAt nodes i).priority < uint64Max := by
  have hopen (j : ℕ) (hj : j < nodes.length) (hstate : (nodeAt nodes j).state =
      (nodeAt nodes i).state) : (nodeAt nodes j).closed = false := by
    rw [h.distinct j hj i hnext.1.1 hstate]
    exact hnext.1.2
  obtain ⟨front, back, m, j, rfl, hback, ho, hstate, hcost⟩ :=
    h.crosses_of_open ts _ hw hopen
  have hscore : a.score .astar m ≤
      cost (stepCost .astar) back+a.score .astar (nodeAt nodes i).state := by
    unfold PureAdapter.score
    rw [if_pos (Or.inl rfl), if_pos (Or.inl rfl)]
    cases hh : a.heuristic with
    | none => exact Nat.zero_le _
    | some heuristic => exact hcons.walk hh back m _ hback
  rw [cost_append] at hlt
  calc (nodeAt nodes i).priority ≤ (nodeAt nodes j).priority := hnext.priority_le ho
    _ ≤ cost (stepCost .astar) front+(cost (stepCost .astar) back+
        a.score .astar (nodeAt nodes i).state) := by
      rw [h.priority j ho.1, h.heuristic j ho.1, hstate]
      exact Pathfinding.priority_le _ _ _ (by omega) (by omega) (by decide)
    _ < uint64Max := by omega

/-- What the levels need: they rise along the transitions, and with A* they stay within the range of
costs, because a goal is within it or because each state that can be reached is. -/
structure PureAdapter.Levels (a : PureAdapter) (algorithm : Algorithm) (start : StateId) : Prop where
  monotone : a.Monotone algorithm
  room : algorithm = .astar → (∃ n ∈ a.goalCosts (stepCost algorithm) start, n < uint64Max) ∨
    ∀ s, Reachable a.transitions Transition.state start s →
      ∃ ts, a.Walk start ts s ∧ cost (stepCost algorithm) ts+a.score algorithm s < uint64Max

/-- An expansion, or the part of it before a stop, closes one node and opens none again. -/
theorem Coherent.close_levelled {i : ℕ} {rest : List Transition}
    (h : Coherent a algorithm start nodes) (hlev : a.Levels algorithm start)
    (hl : Levelled nodes p) (hnext : IsNext nodes i)
    (hgoal : a.goal (nodeAt nodes i).state = false)
    (htrans : a.transitions (nodeAt nodes i).state = ts ++ rest)
    (hr : RelaxAll a algorithm i ts (closeAt nodes i) nodes') :
    (∃ q, Levelled nodes' q) ∧ closedCount nodes' = closedCount nodes+1 := by
  have hi := hnext.1.1
  have hroom : algorithm = .astar → (nodeAt nodes i).priority < uint64Max := by
    intro hastar
    have hcons := hlev.monotone.2 hastar
    rcases hlev.room hastar with ⟨n, hn, hlt⟩ | hreach
    · exact h.priority_lt_of_goal hcons.admissible hlev.monotone.1 hnext hn hlt
    · subst hastar
      obtain ⟨ts, hw, hlt⟩ := hreach _ (h.reachable i hi)
      exact h.priority_lt_of_walk hcons hnext ts hw hlt
  have hp : (nodeAt (closeAt nodes i) i).priority = (nodeAt nodes i).priority := by
    rw [nodeAt_closeAt nodes i i hi, if_pos rfl]
  obtain ⟨hend, hcount⟩ := (h.close hnext hgoal).relaxAll_levelled hlev.monotone hp hroom
    (hl.close hnext) (fun t ht => by
      rw [closeAt_state nodes i i hi, htrans]
      exact List.mem_append_left rest ht) hr
  exact ⟨⟨_, hend⟩, hcount.trans (closedCount_closeAt i hnext.1)⟩

/-- The nodes between two rounds. -/
structure Settling (a : PureAdapter) (algorithm : Algorithm) (start : StateId) (table : Table) :
    Prop where
  coherent : Coherent a algorithm start table.nodes
  levelled : ∃ p, Levelled table.nodes p
  expanded : table.metrics.expanded = closedCount table.nodes
  generated : table.GeneratedRight
  running : table.stop = none
  best : BestBelow table

variable {σ : Type} {adapter : Adapter σ} {options : Options} {table : Table}

/-- Emitting expands nothing. -/
theorem emitSearch_expanded (active : ℕ) (world : σ) (t : Transition) :
    (table.emitSearch adapter options active world t).2.1.metrics.expanded =
      table.metrics.expanded := by
  unfold Table.emitSearch
  dsimp only
  split_ifs
  · rfl
  cases findState table.nodes t.state with
  | none =>
    dsimp only
    unfold Table.emitNew
    split_ifs
    · rfl
    · rfl
    · simp only [Table.recordFrontier, considerPartial_metrics]
  | some i =>
    dsimp only
    split_ifs
    · rfl
    unfold Table.emitImproved
    dsimp only
    split_ifs
    · rfl
    · simp only [Table.recordFrontier, considerPartial_metrics]
    · simp only [considerPartial_metrics]

/-- The numbers that an expansion leaves. -/
theorem expand_counts (n active : ℕ) (neighbors : σ → StateId → Enumeration σ) (world : σ)
    (h : table.metrics.expanded = n ∧ table.GeneratedRight) :
    (table.expand (Table.searchEmit adapter options active) neighbors world active).1.metrics.expanded
        = n ∧
      (table.expand (Table.searchEmit adapter options active) neighbors world active).1.GeneratedRight
        := by
  have hrun := (neighbors world (nodeAt table.nodes active).state).run_invariant
    (Table.searchEmit adapter options active)
    (fun table => table.metrics.expanded = n ∧ table.GeneratedRight)
    (fun table world t hI => emitGuarded_cases
      (fun table => table.metrics.expanded = n ∧ table.GeneratedRight) _ world t hI
      (fun _ _ => hI) fun world t =>
        ⟨(emitSearch_expanded active world t).trans hI.1,
          (emitSearch_counted active world t).generated hI.2⟩) table h
  unfold Table.expand
  dsimp only
  split_ifs
  · exact hrun
  · exact hrun

/-- The numbers that a round leaves: a node has been expanded, unless the round came to an end
before. -/
theorem searchRound_counts (a : PureAdapter) (options : Options) (table : Table) (polls : ℕ)
    (h : table.GeneratedRight) :
    (∀ next, a.searchRound options (table, polls) = .inl next →
      next.1.metrics.expanded = table.metrics.expanded+1 ∧ next.1.GeneratedRight) ∧
    ∀ call, a.searchRound options (table, polls) = .inr call →
      call.table.metrics.expanded = table.metrics.expanded+call.cut.elim 0 (fun _ => 1) ∧
        call.table.GeneratedRight := by
  unfold PureAdapter.searchRound
  dsimp only
  cases hn : nextOpen table.nodes with
  | none => exact ⟨fun _ he => (by cases he), fun _ he => Sum.inr.inj he ▸ ⟨rfl, h⟩⟩
  | some i =>
    dsimp only
    generalize pollCancelled a.toAdapter polls = poll
    split_ifs
    · exact ⟨fun _ he => (by cases he), fun _ he => Sum.inr.inj he ▸ ⟨rfl, h⟩⟩
    · exact ⟨fun _ he => (by cases he), fun _ he => Sum.inr.inj he ▸ ⟨rfl, h⟩⟩
    · exact ⟨fun _ he => (by cases he), fun _ he => Sum.inr.inj he ▸ ⟨rfl, h⟩⟩
    · have hclosed := (close_counted i (nextOpen_isNext _ _ hn).1.1).generated h
      have hexpand := @expand_counts ℕ a.toAdapter options (table.close i)
        (table.metrics.expanded+1) i
        (fun polls state => a.enumerate state (a.transitions state) polls) poll.2 ⟨rfl, hclosed⟩
      generalize (table.close i).expand _ _ _ _ = expanded at hexpand ⊢
      cases expanded.1.stop with
      | none => exact ⟨fun _ he => Sum.inl.inj he ▸ hexpand, fun _ he => (by cases he)⟩
      | some stop => exact ⟨fun _ he => (by cases he), fun _ he => Sum.inr.inj he ▸ hexpand⟩

/-- A round keeps what holds between two rounds. -/
theorem Settling.next {next : Table × ℕ} {polls : ℕ}
    (h : Settling a options.algorithm start table) (hlev : a.Levels options.algorithm start)
    (hnext : a.searchRound options (table, polls) = .inl next) :
    Settling a options.algorithm start next.1 := by
  have hround := searchRound_result a options table polls h.running h.best
  obtain ⟨hexpanded, hgenerated⟩ := (searchRound_counts a options table polls h.generated).1 next
    hnext
  rw [hnext] at hround
  cases hround with
  | continues i next polls hexp hstop hbest =>
    obtain ⟨p, hl⟩ := h.levelled
    obtain ⟨hl', hcount⟩ := h.coherent.close_levelled hlev hl hexp.next hexp.noGoal
      (List.append_nil _).symm hexp.relaxed
    refine ⟨h.coherent.expands hexp, hl', ?_, hgenerated, hstop, hbest⟩
    rw [hexpanded, hcount, h.expanded]

theorem Sound.closedCount_le (h : Sound a algorithm start nodes) :
    closedCount nodes ≤ (statesOf nodes).toFinset.card := by
  apply Finset.card_le_card_of_injOn fun i => (nodeAt nodes i).state
  · intro i hi
    have hlt := Finset.mem_range.mp (Finset.mem_filter.mp hi).1
    simp only [statesOf, List.coe_toFinset, Set.mem_ofPred_eq, List.mem_map]
    refine ⟨nodes[i], List.getElem_mem hlt, ?_⟩
    simp [nodeAt, hlt]
  · intro i hi j hj he
    exact h.distinct i (Finset.mem_range.mp (Finset.mem_filter.mp hi).1) j
      (Finset.mem_range.mp (Finset.mem_filter.mp hj).1) he

/-- Once the frontier is empty, every node is closed. -/
theorem closedCount_of_exhausted (h : nextOpen nodes = none) :
    closedCount nodes = nodes.length := by
  unfold closedCount
  rw [Finset.filter_true_of_mem, Finset.card_range]
  intro i hi
  by_contra hclosed
  exact not_isOpen_of_nextOpen h i ⟨Finset.mem_range.mp hi, by simpa using hclosed⟩

/-- A node of the frontier is not counted. -/
theorem Sound.closedCount_lt (h : Sound a algorithm start nodes) {i : ℕ} (hi : IsOpen nodes i) :
    closedCount nodes < (statesOf nodes).toFinset.card := by
  have hle := (h.closeAt i hi.1).closedCount_le
  rw [closedCount_closeAt i hi] at hle
  have hstates : statesOf (Pathfinding.closeAt nodes i) = statesOf nodes := statesOf_set _ _ _ rfl
  rwa [hstates] at hle

/-- Nodes have been expanded at most once, all of them if the frontier was exhausted. -/
structure ExpandedOnce (metrics : Metrics) (status : Status) (termination : Termination) : Prop where
  le : metrics.expanded ≤ metrics.generated
  eq_of_exhausted : termination = .exhausted → metrics.expanded = metrics.generated
  lt_of_found : status = .found → metrics.expanded < metrics.generated

/-- However a search ends, it has expanded no more nodes than it has discovered states. -/
theorem Settling.last {call : FinishCall} {polls : ℕ}
    (h : Settling a options.algorithm start table) (hlev : a.Levels options.algorithm start)
    (hlast : a.searchRound options (table, polls) = .inr call) :
    ExpandedOnce call.table.metrics call.status call.termination := by
  have hround := searchRound_result a options table polls h.running h.best
  obtain ⟨hexpanded, hgenerated⟩ := (searchRound_counts a options table polls h.generated).2 call
    hlast
  have hs := h.coherent.toSound
  rw [hlast] at hround
  cases hround with
  | found i polls hnext hgoal =>
    have hlt : table.metrics.expanded < table.metrics.generated := by
      rw [h.expanded, h.generated]
      exact hs.closedCount_lt hnext.1
    exact ⟨hlt.le, fun hno => (by cases hno), fun _ => hlt⟩
  | exhausted polls hnone =>
    have heq : table.metrics.expanded = table.metrics.generated := by
      rw [h.expanded, h.generated]
      apply le_antisymm hs.closedCount_le
      calc (statesOf table.nodes).toFinset.card ≤ (statesOf table.nodes).length :=
            List.toFinset_card_le _
        _ = table.nodes.length := List.length_map _
        _ = closedCount table.nodes := (closedCount_of_exhausted hnone).symm
    exact ⟨heq.le, fun _ => heq, fun hno => by cases hno⟩
  | halted last cut polls status termination hreason hbest hcut =>
    have hle : last.metrics.expanded ≤ last.metrics.generated := by
      have hsound := (h.coherent.interrupted hcut).1
      rw [hexpanded, hgenerated, h.expanded]
      show closedCount table.nodes+cut.elim 0 (fun _ => 1) ≤ (statesOf last.nodes).toFinset.card
      generalize last.nodes = final at hcut hsound ⊢
      cases hcut with
      | before => exact hsound.closedCount_le
      | during i _ hnext hgoal done rest htrans hrelax =>
        obtain ⟨p, hl⟩ := h.levelled
        obtain ⟨_, hcount⟩ := h.coherent.close_levelled hlev hl hnext hgoal htrans hrelax
        calc closedCount table.nodes+1 = closedCount final := hcount.symm
          _ ≤ _ := hsound.closedCount_le
    refine ⟨hle, fun hno => ?_, fun hno => ?_⟩
    · obtain rfl : termination = .exhausted := hno
      cases hreason
    · obtain rfl : status = .found := hno
      cases hreason

theorem ExpandedOnce.finish {status : Status} {termination : Termination} {node : Option ℕ}
    {r : SearchResult} (he : ExpandedOnce table.metrics status termination)
    (h : table.finish options status termination node = some r) :
    ExpandedOnce r.metrics r.status r.termination := by
  cases node with
  | some i =>
    obtain ⟨steps, _, rfl⟩ := finishPath_eq_some _ _ _ _ h
    exact ⟨he.le, he.eq_of_exhausted, he.lt_of_found⟩
  | none =>
    rcases finish_none_cases _ _ _ _ _ h with rfl | ⟨best, _, _, _, hp⟩
    · exact he
    · -- a partial path is not reported as found
      obtain ⟨steps, _, rfl⟩ := finishPath_eq_some _ _ _ _ hp
      exact ⟨he.le, he.eq_of_exhausted, fun hno => by cases hno⟩

end LibAtrinik.Pathfinding

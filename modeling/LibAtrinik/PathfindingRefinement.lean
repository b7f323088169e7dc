import LibAtrinik.PathfindingFinish

namespace LibAtrinik.Pathfinding

variable {σ : Type}

/-- What every emission preserves holds at the end of an enumeration. -/
theorem Enumeration.run_invariant {β : Type} (emit : β → σ → Option Transition → Bool × β × σ)
    (I : β → Prop) (hI : ∀ b w t, I b → I (emit b w t).2.1) (e : Enumeration σ) (b : β)
    (h : I b) : I (e.run emit b).2.1 := by
  induction e generalizing b with
  | finish enumerated world => exact h
  | emit transition world resume ih => exact ih _ _ _ (hI b world transition h)

/-- Two runs of one enumeration whose emissions correspond, unless the first one has reached
a state in `B`, which it then never leaves. -/
theorem Enumeration.run_simulation {β γ : Type}
    (emit : β → σ → Option Transition → Bool × β × σ)
    (emit' : γ → σ → Option Transition → Bool × γ × σ) (R : β → γ → Prop) (B : β → Prop)
    (hB : ∀ b w t, B b → B (emit b w t).2.1)
    (hstep : ∀ b c w t, R b c → B (emit b w t).2.1 ∨
      (emit b w t).1 = (emit' c w t).1 ∧ R (emit b w t).2.1 (emit' c w t).2.1 ∧
        (emit b w t).2.2 = (emit' c w t).2.2)
    (e : Enumeration σ) (b : β) (c : γ) (h : B b ∨ R b c) :
    B (e.run emit b).2.1 ∨
      (e.run emit b).1 = (e.run emit' c).1 ∧ R (e.run emit b).2.1 (e.run emit' c).2.1 ∧
        (e.run emit b).2.2 = (e.run emit' c).2.2 := by
  induction e generalizing b c with
  | finish enumerated world =>
    rcases h with h | h
    · exact Or.inl h
    · exact Or.inr ⟨rfl, h, rfl⟩
  | emit transition world resume ih =>
    -- once in `B` the two enumerations may be resumed differently
    rcases h with h | h
    · exact Or.inl ((Enumeration.emit transition world resume).run_invariant emit B hB b h)
    · rcases hstep b c world transition h with hb | ⟨hflag, hR, hworld⟩
      · exact Or.inl ((resume _ _).run_invariant emit B hB _ hb)
      · simp only [Enumeration.run]
        rw [hflag, hworld]
        exact ih _ _ _ _ (Or.inr hR)

theorem OutOfMemory.emitTransition {c : Context} (h : OutOfMemory c) (adapter : Adapter σ)
    (world : σ) (transition : Option Transition) :
    OutOfMemory (pfEmitTransition adapter c world transition).2.1 := by
  unfold pfEmitTransition
  rw [if_pos h.stopped]
  exact h

/-- The active node is set and cleared around an expansion. -/
theorem Running.activate {search : Bool} {options : Options} {active : Option ℕ} {c : Context}
    (h : Running search options active c) (active' : Option ℕ)
    (ha : ∀ i, active' = some i → i < c.nodeCount) :
    Running search options active' { c with activeNode := active' } :=
  ⟨h.indexed.control rfl, fun hs => (h.frontier hs).control rfl, h.options_eq, h.mode, rfl, ha,
    h.best_lt, h.parent_lt, h.priority, h.generated⟩

theorem pfExpand_agrees (search : Bool) (adapter : Adapter σ)
    (neighbors : σ → StateId → Enumeration σ) (c : Context) (options : Options)
    (h : Running search options none c) (world : σ) (i : ℕ) (hi : i < c.nodeCount) :
    OutOfMemory (pfExpand adapter neighbors c world i).1 ∨
    Running search options none (pfExpand adapter neighbors c world i).1 ∧
      (pfExpand adapter neighbors c world i).1.table =
        (c.table.expand (Table.emit search adapter options i) neighbors world i).1 ∧
      (pfExpand adapter neighbors c world i).2 =
        (c.table.expand (Table.emit search adapter options i) neighbors world i).2 := by
  have hstart := h.activate (some i) (fun j hj => Option.some.inj hj ▸ hi)
  have hstate : (nodeAt c.table.nodes i).state = (c.node i).state := by
    rw [show nodeAt c.table.nodes i = (c.node i).erase from h.indexed.nodeAt_eq i hi]
    rfl
  have hrun := Enumeration.run_simulation (pfEmitTransition adapter)
    (Table.emit search adapter options i)
    (fun c t => Running search options (some i) c ∧ c.table = t) OutOfMemory
    (fun c w t hc => hc.emitTransition adapter w t)
    (by
      rintro c _ w t ⟨hc, rfl⟩
      rcases pfEmitTransition_agrees search adapter c options i hc t w with hoom | hag
      · exact Or.inl hoom
      · exact Or.inr ⟨hag.flag, ⟨hag.running, hag.table⟩, hag.world⟩)
    (neighbors world (c.node i).state) { c with activeNode := some i } c.table
    (Or.inr ⟨hstart, rfl⟩)
  unfold pfExpand Table.expand
  rw [hstate]
  revert hrun
  generalize (neighbors world (c.node i).state).run (pfEmitTransition adapter)
    { c with activeNode := some i } = r
  generalize (neighbors world (c.node i).state).run (Table.emit search adapter options i)
    c.table = r'
  rintro (hoom | ⟨hflag, ⟨hrun, htab⟩, hworld⟩)
  · left
    have hrunning : (!r.1 && !r.2.1.stopped) = false := by rw [hoom.stopped]; cases r.1 <;> rfl
    simp only [hrunning, Bool.false_eq_true, if_false]
    exact ⟨hoom.shape.control rfl, hoom.stopped, hoom.status, hoom.termination⟩
  · right
    have hend := hrun.activate none (fun j hj => absurd hj (by simp))
    have hstop : r'.2.1.stop.isNone = !r.2.1.stopped := by
      rw [← htab, table_stop]
      cases r.2.1.stopped <;> rfl
    simp only [hstop]
    rw [← hflag, ← hworld, ← htab]
    by_cases hfail : (!r.1 && !r.2.1.stopped) = true
    · simp only [if_pos hfail]
      have hag := hend.agrees_stop .adapterError .adapterError r.2.2
      exact ⟨hag.running, hag.table, trivial⟩
    · simp only [if_neg hfail]
      exact ⟨hend, rfl, trivial⟩

/-- The node list does not change when the root leaves the heap. -/
theorem pfHeapPop_table {options : Options} {c : Context} (h : Running true options none c)
    (h0 : c.heapCount ≠ 0) :
    (pfHeapPop c).1 = c.heapAt 0 ∧ c.heapAt 0 < c.nodeCount ∧
      Indexed (pfHeapPop c).2 ∧ Frontier (pfHeapPop c).2 (some (c.heapAt 0)) ∧
      (pfHeapPop c).2.table = c.table ∧
      HeapFrame { c with heapCount := c.heapCount-1 } (pfHeapPop c).2 := by
  obtain ⟨hroot, hframe, hfront⟩ := pfHeapPop_spec c h.indexed (h.frontier rfl) h0
  have hi := h.indexed
  have hi0 : Indexed { c with heapCount := c.heapCount-1 } :=
    ⟨⟨hi.1.1, hi.1.2, hi.1.3, hi.1.4, hi.1.5, hi.1.6, hi.1.7⟩, hi.2, hi.3, hi.4, hi.5, hi.6⟩
  exact ⟨hroot, (h.frontier rfl).placed.bound 0 (Nat.pos_of_ne_zero h0), hframe.indexed hi0, hfront,
    hframe.table hi0, hframe⟩

/-- `node->closed = true; context->metrics.expanded++` -/
def Context.closeNode (c : Context) (i : ℕ) : Context :=
  { c.setNode i { c.node i with closed := true } with
    metrics := { c.metrics with expanded := c.metrics.expanded+1 } }

/-- The main loop closes a node so. -/
theorem setNode_closed (c : Context) (i : ℕ) :
    ({ c.setNode i { c.node i with closed := true } with
      metrics := { (c.setNode i { c.node i with closed := true }).metrics with
        expanded := (c.setNode i { c.node i with closed := true }).metrics.expanded+1 } } :
      Context) = c.closeNode i := rfl

theorem node_closeNode (c : Context) (i j : ℕ) (hlen : i < c.nodes.length) :
    (c.closeNode i).node j = if j = i then { c.node i with closed := true } else c.node j :=
  node_setNode c i j _ hlen

/-- The node that is out of the heap is closed. -/
theorem Frontier.close {c : Context} {i : ℕ} (hf : Frontier c (some i)) (hlen : i < c.nodes.length) :
    Frontier (c.closeNode i) none := by
  have hp := hf.placed
  have hheap : (c.closeNode i).heap = c.heap := rfl
  apply hf.congr hheap rfl rfl le_rfl
  · intro q hq
    rw [node_closeNode c i _ hlen, if_neg fun he => hp.fresh q hq (by rw [he])]
  · intro q _
    simp
  · intro j hj ho _
    rw [node_closeNode c i j hlen] at ho
    split_ifs at ho with hji
    exact hp.complete j hj ho (fun he => hji (Option.some.inj he).symm)

/-- Closing the node that has just left the heap. -/
theorem closeNode_running {options : Options} {c p : Context} (i : ℕ)
    (h : Running true options none c) (hi : Indexed p) (hf : Frontier p (some i))
    (hframe : HeapFrame { c with heapCount := c.heapCount-1 } p) (hlt : i < c.nodeCount)
    (htab : p.table = c.table) :
    Running true options none (p.closeNode i) ∧ (p.closeNode i).table = c.table.close i := by
  have hcount : p.nodeCount = c.nodeCount := by rw [hframe.rest]
  have hlt' : i < p.nodeCount := by rw [hcount]; exact hlt
  have hlen : i < p.nodes.length := lt_of_lt_of_le hlt' hi.count_le_length
  let closed : PfNode := { p.node i with closed := true }
  have hi1 : Indexed (p.setNode i closed) := hi.setNode i closed hlt' rfl (hi.sequence i hlt')
  have hi2 : Indexed (p.closeNode i) := hi1.control rfl
  have hold (j : ℕ) : ((p.closeNode i).node j).erase.parent = (c.node j).parent ∧
      ((p.closeNode i).node j).erase.priority = (c.node j).priority ∧
      ((p.closeNode i).node j).erase.cost = (c.node j).cost ∧
      ((p.closeNode i).node j).erase.heuristic = (c.node j).heuristic := by
    have hsame : (p.node j).erase = (c.node j).erase := hframe.erase j
    have h1 := congrArg PfNode.parent hsame
    have h2 := congrArg PfNode.priority hsame
    have h3 := congrArg PfNode.cost hsame
    have h4 := congrArg PfNode.heuristic hsame
    rw [node_closeNode p i j hlen]
    split_ifs with hji
    · subst hji
      exact ⟨h1, h2, h3, h4⟩
    · exact ⟨h1, h2, h3, h4⟩
  have hcount' : (p.closeNode i).nodeCount = c.nodeCount := hcount
  refine ⟨⟨hi2, fun _ => hf.close hlen, ?_, ?_, ?_, fun j hj => absurd hj (by simp), ?_, ?_, ?_, ?_⟩, ?_⟩
  · exact (congrArg Context.options hframe.rest).trans h.options_eq
  · exact (congrArg Context.reachability hframe.rest).trans h.mode
  · exact (congrArg Context.activeNode hframe.rest).trans h.active_eq
  · intro j hj
    rw [hcount']
    exact h.best_lt j ((congrArg Context.partialNode hframe.rest).symm.trans hj)
  · intro j hj q hq
    rw [hcount'] at hj ⊢
    exact h.parent_lt j hj q ((hold j).1.symm.trans hq)
  · intro _ j hj
    rw [hcount'] at hj
    have hprio := h.priority rfl j hj
    unfold Prioritized at hprio ⊢
    obtain ⟨_, h2, h3, h4⟩ := hold j
    rw [← h2, ← h3, ← h4] at hprio
    exact hprio
  · rw [hcount', ← h.generated]
    exact (congrArg (fun c => c.metrics.generated) hframe.rest)
  · have hlist : (p.closeNode i).nodeList = p.nodeList.set i closed.erase :=
      nodeList_setNode hi i closed hlt' hi1
    rw [← htab]
    refine Table.ext ?_ rfl rfl rfl rfl
    show (p.closeNode i).nodeList = _
    rw [hlist]
    unfold Table.close
    rw [show nodeAt p.table.nodes i = (p.node i).erase from hi.nodeAt_eq i hlt']
    rfl

/-- A context and a table between two rounds. -/
def Matches (options : Options) (a : Context × σ) (b : Table × σ) : Prop :=
  Running true options none a.1 ∧ a.1.stopped = false ∧ a.1.table = b.1 ∧ a.2 = b.2

/-- The operation has come back because memory was refused. -/
def Refused {ρ : Type} (status : ρ → Status) (out : Finished σ ρ) : Prop :=
  ∃ result c world, out = some (result, c, world) ∧ Shape c ∧ status result = .outOfMemory

theorem Running.finishable {search : Bool} {options : Options} {active : Option ℕ} {c : Context}
    (h : Running search options active c) : Finishable options c :=
  ⟨h.options_eq, h.indexed, h.parent_lt, h.best_lt, h.generated⟩

/-- Paths can still be built when the root has left the heap. -/
theorem Running.popped {options : Options} {c : Context} (h : Running true options none c)
    (h0 : c.heapCount ≠ 0) :
    (pfHeapPop c).2.nodeCount = c.nodeCount ∧ Finishable options (pfHeapPop c).2 := by
  obtain ⟨_, _, hi, _, _, hframe⟩ := pfHeapPop_table h h0
  have hcount : (pfHeapPop c).2.nodeCount = c.nodeCount := by rw [hframe.rest]
  refine ⟨hcount, ?_, hi, ?_, ?_, ?_⟩
  · rw [hframe.rest]
    exact h.options_eq
  · rw [hcount]
    exact h.parent_lt.of_erase (fun i _ => hframe.erase i)
  · intro i hb
    rw [hframe.rest] at hb
    rw [hcount]
    exact h.best_lt i hb
  · rw [hcount, hframe.rest]
    exact h.generated

/-- A search can be finished from a context from which paths can be built. -/
theorem Finishable.ends {options : Options} {c : Context} (h : Finishable options c)
    (status : Status) (termination : Termination) (node : Option ℕ)
    (hn : ∀ i, node = some i → i < c.nodeCount) (world : σ) :
    Ends SearchResult.status SearchResult.metrics (finishSearch c world status termination node)
      ((c.table.finish options status termination node).map (·, world)) := by
  have hgen : c.metrics.generated*sizeofPfNode ≤ sizeMax := by
    rw [h.generated]
    exact (Nat.mul_le_mul_right _ h.indexed.count_le).trans h.indexed.shape.bytes
  have hend := pfFinishSearch_ends c h.indexed h.parent_lt h.best_lt hgen status termination node
    hn world
  rwa [h.options_eq] at hend

theorem Running.ends {options : Options} {c : Context} (h : Running true options none c)
    (status : Status) (termination : Termination) (world : σ) :
    Ends SearchResult.status SearchResult.metrics (finishSearch c world status termination none)
      ((c.table.finish options status termination none).map (·, world)) :=
  h.finishable.ends status termination none (fun i hi => absurd hi (by simp)) world

theorem finishSearch_outOfMemory (c : Context) (world : σ) :
    finishSearch c world .outOfMemory .outOfMemory none = some ({
      status := .outOfMemory, termination := .outOfMemory, metrics := c.metrics }, c, world) := by
  unfold finishSearch pfFinishSearch
  cases c.partialNode with
  | none => rfl
  | some best => simp

theorem finishSearch_refused {c : Context} (h : Shape c) (world : σ) :
    Refused SearchResult.status (finishSearch c world .outOfMemory .outOfMemory none) := by
  rw [finishSearch_outOfMemory]
  exact ⟨_, c, world, rfl, h, rfl⟩

theorem OutOfMemory.refused {c : Context} (h : OutOfMemory c) (world : σ) :
    Refused SearchResult.status (finishSearch c world c.stopStatus c.stopTermination none) := by
  rw [h.status, h.termination]
  exact finishSearch_refused h.shape world

theorem Table.emit_true (adapter : Adapter σ) (options : Options) (i : ℕ) :
    Table.emit true adapter options i = Table.searchEmit adapter options i := rfl

/-- A search that has found its goal. What it stores as the total cost before is overwritten by
`pf_build_path`. -/
theorem Finishable.ends_goal {options : Options} {c : Context} (h : Finishable options c) (i : ℕ)
    (hlt : i < c.nodeCount) (world : σ) :
    Ends SearchResult.status SearchResult.metrics
      (finishSearch { c with metrics := { c.metrics with totalCost := (c.node i).cost } } world
        .found .goal (some i))
      ((c.table.finish options .found .goal (some i)).map (·, world)) := by
  let c' : Context := { c with metrics := { c.metrics with totalCost := (c.node i).cost } }
  have h' : Finishable options c' :=
    ⟨h.options_eq, h.indexed.control rfl, h.parent_lt, h.best_lt, h.generated⟩
  have hend := h'.ends .found .goal (some i) (fun j hj => Option.some.inj hj ▸ hlt) world
  exact hend

/-- An expansion ends the search if it has been stopped, and otherwise the round. -/
theorem Running.expanded {options : Options} {e : Context × σ} {e' : Table × σ}
    (h : Running true options none e.1) (htab : e.1.table = e'.1) (hworld : e.2 = e'.2) :
    Sum.LiftRel (Matches options) (Ends SearchResult.status SearchResult.metrics)
      (if e.1.stopped = true then
        .inr (finishSearch e.1 e.2 e.1.stopStatus e.1.stopTermination none)
      else .inl e)
      (match e'.1.stop with
      | some (status, termination) =>
        .inr ((e'.1.finish options status termination none).map (·, e'.2))
      | none => .inl e') := by
  rw [← htab, ← hworld, table_stop]
  cases hs : e.1.stopped with
  | true =>
    simp only [if_true]
    exact Sum.LiftRel.inr (h.ends _ _ e.2)
  | false =>
    simp only [Bool.false_eq_true, if_false]
    exact Sum.LiftRel.inl ⟨h, hs, htab, hworld⟩

theorem pfSearchRound_simulates (adapter : Adapter σ) (options : Options)
    (neighbors : σ → StateId → Enumeration σ) (goal : σ → StateId → Bool × σ)
    (a : Context × σ) (b : Table × σ) (h : Matches options a b) :
    (∃ out, pfSearchRound adapter neighbors goal a = .inr out ∧
      Refused SearchResult.status out) ∨
    Sum.LiftRel (Matches options) (Ends SearchResult.status SearchResult.metrics)
      (pfSearchRound adapter neighbors goal a)
      (Table.searchRound adapter options neighbors goal b) := by
  obtain ⟨c, world⟩ := a
  obtain ⟨table, world'⟩ := b
  obtain ⟨hrun, hstop, htab, hworld⟩ := h
  dsimp only at hrun hstop htab hworld
  subst htab hworld
  unfold pfSearchRound Table.searchRound
  by_cases h0 : c.heapCount = 0
  · have hnext : nextOpen c.table.nodes = none :=
      (hrun.frontier rfl).placed.nextOpen_eq_none hrun.indexed h0
    simp only [if_pos h0, hnext]
    exact Or.inr (Sum.LiftRel.inr (hrun.ends _ _ world))
  have hnext : nextOpen c.table.nodes = some (c.heapAt 0) :=
    (hrun.frontier rfl).nextOpen_eq hrun.indexed h0
  simp only [if_neg h0, hnext]
  generalize pollCancelled adapter world = poll
  by_cases hpoll : poll.1 = true
  · simp only [if_pos hpoll]
    exact Or.inr (Sum.LiftRel.inr (hrun.ends _ _ poll.2))
  simp only [if_neg hpoll]
  obtain ⟨hroot, hlt, hip, hfp, htabp, hframe⟩ := pfHeapPop_table hrun h0
  rw [hroot]
  generalize hp : (pfHeapPop c).2 = p
  rw [hp] at hip hfp htabp hframe
  obtain ⟨hcount, hfin⟩ := hrun.popped h0
  rw [hp] at hcount hfin
  have hopts : p.options = options := hfin.options_eq
  have hmetrics : p.metrics = c.table.metrics := by
    rw [hframe.rest]
    rfl
  have hstate : (nodeAt c.table.nodes (c.heapAt 0)).state = (p.node (c.heapAt 0)).state := by
    rw [show nodeAt c.table.nodes (c.heapAt 0) = (c.node (c.heapAt 0)).erase from
      hrun.indexed.nodeAt_eq _ hlt, hframe.state]
    rfl
  rw [hstate]
  generalize goal poll.2 (p.node (c.heapAt 0)).state = reached
  by_cases hgoal : reached.1 = true
  · simp only [if_pos hgoal]
    have hend := hfin.ends_goal (c.heapAt 0) (by rw [hcount]; exact hlt) reached.2
    rw [htabp] at hend
    exact Or.inr (Sum.LiftRel.inr hend)
  simp only [if_neg hgoal, hopts, hmetrics]
  by_cases hmax : spent options.maxExpanded c.table.metrics.expanded = true
  · simp only [if_pos hmax]
    right
    apply Sum.LiftRel.inr
    have hend := hfin.ends .limitReached .limit none (fun i hi => absurd hi (by simp)) reached.2
    rwa [htabp] at hend
  simp only [if_neg hmax]
  obtain ⟨hclosed, htabc⟩ := closeNode_running (c.heapAt 0) hrun hip hfp hframe hlt htabp
  have hcl : ({ p.setNode (c.heapAt 0) { p.node (c.heapAt 0) with closed := true } with
      metrics := { c.table.metrics with expanded := c.table.metrics.expanded+1 } } : Context) =
      p.closeNode (c.heapAt 0) := by
    rw [← hmetrics]
    rfl
  rw [show (p.setNode (c.heapAt 0) { p.node (c.heapAt 0) with closed := true }).metrics =
    c.table.metrics from hmetrics, hcl, ← htabc, ← Table.emit_true]
  rcases pfExpand_agrees true adapter neighbors (p.closeNode (c.heapAt 0)) options hclosed reached.2
    (c.heapAt 0) (by rw [← hcount] at hlt; exact hlt) with hoom | ⟨hrun', htab', hworld'⟩
  · left
    rw [if_pos hoom.stopped]
    exact ⟨_, rfl, hoom.refused _⟩
  · right
    exact hrun'.expanded htab' hworld'

end LibAtrinik.Pathfinding

import LibAtrinik.PathfindingMoments
import LibAtrinik.PathfindingEmission

namespace LibAtrinik.Pathfinding

open Trace

variable {σ : Type} {adapter : Adapter σ} {options : Options} {start : StateId}
  {c c' : Context}

/-- What a search has just done. -/
inductive SearchEvent where
  /-- `pf_reset` has emptied the context. -/
  | prepared
  /-- The memory for the start node has been refused. -/
  | refused
  /-- The start node is stored, or `neighbors` has come back. -/
  | ready
  /-- `pf_heap_pop` has returned a node, and `goal` is called for it next. -/
  | taken (node : ℕ)
  /-- The node is closed and `neighbors` is called for it. -/
  | closed (node : ℕ)
  /-- `pf_emit_transition` has come back. -/
  | emitted (transition : Option Transition)
  /-- `pf_finish_search` has come back. A node was taken in this round, or none. -/
  | finished (node : Option ℕ)
deriving DecidableEq

abbrev SearchPoint := SearchEvent × Context

/-- The states that `emit` leaves, each with the transition. -/
def Enumeration.emissions {β : Type} (emit : β → σ → Option Transition → Bool × β × σ) :
    Enumeration σ → β → List (Option Transition × β)
  | .finish _ _, _ => []
  | .emit transition world resume, b =>
    let r := emit b world transition
    (transition, r.2.1) :: (resume r.1 r.2.2).emissions emit r.2.1

/-- The points of `pfExpand`. -/
def pfExpandTrace (adapter : Adapter σ) (neighbors : σ → StateId → Enumeration σ)
    (context : Context) (world : σ) (node : ℕ) : List SearchPoint :=
  let active := { context with activeNode := some node }
  (.closed node, active) ::
    ((((neighbors world (context.node node).state).emissions (pfEmitTransition adapter) active).map
      fun r => (.emitted r.1, r.2)) ++
    [(.ready, (pfExpand adapter neighbors context world node).1)])

/-- The point at which a search that comes back is left. -/
def finishTrace (node : Option ℕ) (out : Finished σ SearchResult) : List SearchPoint :=
  out.toList.map fun r => (.finished node, r.2.1)

/-- The points of `pfSearchRound`. -/
def pfSearchRoundTrace (adapter : Adapter σ) (neighbors : σ → StateId → Enumeration σ)
    (goal : σ → StateId → Bool × σ) : Context × σ → List SearchPoint
  | (context, world) =>
    if context.heapCount = 0 then
      finishTrace none (finishSearch context world .noPath .exhausted none)
    else
      let poll := pollCancelled adapter world
      if poll.1 then finishTrace none (finishSearch context poll.2 .cancelled .cancelled none)
      else
        let popped := pfHeapPop context
        let node := popped.1
        let context := popped.2
        let reached := goal poll.2 (context.node node).state
        (.taken node, context) ::
          if reached.1 then
            let context := { context with metrics := { context.metrics with
              totalCost := (context.node node).cost } }
            finishTrace (some node) (finishSearch context reached.2 .found .goal (some node))
          else if spent context.options.maxExpanded context.metrics.expanded then
            finishTrace (some node) (finishSearch context reached.2 .limitReached .limit none)
          else
            let expanded := pfExpand adapter neighbors (context.closeNode node) reached.2 node
            pfExpandTrace adapter neighbors (context.closeNode node) reached.2 node ++
              if expanded.1.stopped then
                finishTrace none (finishSearch expanded.1 expanded.2 expanded.1.stopStatus
                  expanded.1.stopTermination none)
              else []

/-- Every point of a call of `atrinik_pf_search` after `pf_reset`. -/
def atrinikPfSearchTrace (fuel : ℕ) (context : Context) (adapter : Option (Adapter σ))
    (start : StateId) (options : Option Options) (world : σ) : List SearchPoint :=
  let options := options.getD atrinikPfOptionsInit
  let context := pfReset context options
  (.prepared, context) ::
    match adapter with
    | none => []
    | some adapter =>
      match adapter.neighbors, adapter.goal with
      | some neighbors, some goal =>
        if pfValidInput adapter options then
          let started := pfSearchStart adapter context world start
          if started.1 then
            (.ready, started.2.1) :: loop (pfSearchRound adapter neighbors goal)
              (pfSearchRoundTrace adapter neighbors goal) fuel started.2
          else [(.refused, started.2.1)]
        else []
      | _, _ => []

/-- The node `i` may be open and out of the heap: it has been taken and is not closed yet, it is
the start node without the memory for its push, or an emission could not push it. -/
def Aside (p : SearchPoint) (i : ℕ) : Prop :=
  p.1 = .taken i ∨ p.1 = .finished (some i) ∨ (p.1 = .refused ∧ i = 0) ∨ p.2.granted = false

/-- The heap lists the open nodes. -/
structure Listed (p : SearchPoint) : Prop where
  indexed : Indexed p.2
  frontier : ∃ out, Frontier p.2 out ∧ ∀ i, out = some i → Aside p i

/-- The start node is the first one. -/
structure Seeded (start : StateId) (c c' : Context) : Prop where
  empty : c.nodeCount = 0
  count : c'.nodeCount = 1
  link : (c'.node 0).link = ⟨start, 0, 0, none⟩

/-- From one point of a search to the next. -/
structure Next (start : StateId) (algorithm : Algorithm) (p q : SearchPoint) : Prop where
  listed : Listed q
  taken : ∀ i, q.1 = .taken i →
    pfHeapPop p.2 = (i, q.2) ∧ Indexed p.2 ∧ Frontier p.2 none ∧ IsNext p.2.nodeList i
  links : LinksKept p.2 q.2 ∨ Seeded start p.2 q.2 ∨
    ∃ t active k, q.1 = .emitted (some t) ∧ LinkSet algorithm active k t p.2 q.2

theorem Listed.running {active : Option ℕ} (h : Running true options active c)
    (e : SearchEvent) : Listed (e, c) :=
  ⟨h.indexed, none, h.frontier rfl, fun _ hi => by cases hi⟩

/-- Memory was refused to the search, which left one node open and out of the heap. -/
structure Starved (c : Context) : Prop where
  outOfMemory : OutOfMemory c
  indexed : Indexed c
  frontier : ∃ out, Frontier c out

theorem Starved.listed (h : Starved c) (e : SearchEvent) : Listed (e, c) := by
  obtain ⟨out, hf⟩ := h.frontier
  exact ⟨h.indexed, out, hf, fun _ _ => Or.inr (Or.inr (Or.inr h.outOfMemory.not_granted))⟩

/-- Between two emissions the search runs, or memory has been refused to it. -/
def Emitting (options : Options) (active : ℕ) (c : Context) : Prop :=
  Running true options (some active) c ∨ Starved c

theorem Emitting.listed {active : ℕ} (h : Emitting options active c) (e : SearchEvent) :
    Listed (e, c) :=
  h.elim (Listed.running · e) (Starved.listed · e)

/-- One emission. -/
theorem Emitting.emit {active : ℕ} (h : Emitting options active c) (adapter : Adapter σ)
    (e : SearchEvent) (world : σ) (transition : Option Transition) :
    Emitting options active (pfEmitTransition adapter c world transition).2.1 ∧
      Next start options.algorithm (e, c)
        (.emitted transition, (pfEmitTransition adapter c world transition).2.1) := by
  rcases h with h | h
  · have hem := pfEmitTransition_emitted adapter h transition world
    have hnext : Emitting options active (pfEmitTransition adapter c world transition).2.1 := by
      rcases pfEmitTransition_agrees true adapter c options active h transition world with
        hoom | hag
      · obtain ⟨out, hf, _⟩ := hem.frontier
        exact Or.inr ⟨hoom, hem.indexed, out, hf⟩
      · exact Or.inl hag.running
    refine ⟨hnext, hnext.listed _, fun i hi => (by cases hi), ?_⟩
    rcases hem.links with hk | ⟨t, k, rfl, hset⟩
    · exact Or.inl hk
    · exact Or.inr (Or.inr ⟨t, active, k, rfl, hset⟩)
  · -- a stopped context is handed back as it is
    have hsame : (pfEmitTransition adapter c world transition).2.1 = c := by
      unfold pfEmitTransition
      rw [if_pos h.outOfMemory.stopped]
    rw [hsame]
    exact ⟨Or.inr h, h.listed _, fun i hi => (by cases hi), Or.inl (.refl c)⟩

/-- All emissions of an enumeration. -/
theorem Enumeration.emissions_passes {active : ℕ} (enumeration : Enumeration σ)
    (adapter : Adapter σ) (h : Emitting options active c) (e : SearchEvent) :
    ∃ last, Passes (Next start options.algorithm) (e, c)
        ((enumeration.emissions (pfEmitTransition adapter) c).map fun r => (.emitted r.1, r.2))
        last ∧
      last.2 = (enumeration.run (pfEmitTransition adapter) c).2.1 ∧
      Emitting options active last.2 := by
  induction enumeration generalizing c e with
  | finish enumerated world => exact ⟨(e, c), .nil _, rfl, h⟩
  | emit transition world resume ih =>
    obtain ⟨hnext, hstep⟩ := h.emit adapter e world transition
    obtain ⟨last, hpass, hrun, hlast⟩ := ih _ _ hnext (.emitted transition)
    exact ⟨last, .cons hstep hpass, hrun, hlast⟩

theorem Starved.control (h : Starved c) (hc : Control c c') (ho : OutOfMemory c') : Starved c' := by
  obtain ⟨out, hf⟩ := h.frontier
  exact ⟨ho, h.indexed.control hc, out, hf.control hc⟩

/-- A node is expanded. -/
theorem pfExpandTrace_passes (adapter : Adapter σ) (neighbors : σ → StateId → Enumeration σ)
    (h : Running true options none c) (world : σ) (i : ℕ) (hi : i < c.nodeCount)
    (p : SearchPoint) (hp : LinksKept p.2 c) :
    Passes (Next start options.algorithm) p (pfExpandTrace adapter neighbors c world i)
        (.ready, (pfExpand adapter neighbors c world i).1) ∧
      (Running true options none (pfExpand adapter neighbors c world i).1 ∨
        Starved (pfExpand adapter neighbors c world i).1) := by
  have hactive := h.activate (some i) (fun j hj => Option.some.inj hj ▸ hi)
  obtain ⟨last, hpass, hrun, hlast⟩ := (neighbors world (c.node i).state).emissions_passes
    adapter (Or.inl hactive) (.closed i)
  -- the adapter has come back: its answer may be an error, and no node is active any more
  have hready : (Running true options none (pfExpand adapter neighbors c world i).1 ∨
      Starved (pfExpand adapter neighbors c world i).1) ∧
      LinksKept last.2 (pfExpand adapter neighbors c world i).1 := by
    unfold pfExpand
    dsimp only
    rw [hrun] at hlast ⊢
    generalize (neighbors world (c.node i).state).run (pfEmitTransition adapter)
      { c with activeNode := some i } = r at hlast ⊢
    have hidle (hr : Running true options (some i) r.2.1) :=
      hr.activate none (fun j hj => by cases hj)
    split_ifs with hfail
    · have hst : r.2.1.stopped = false := by simpa using (Bool.and_eq_true_iff.mp hfail).2
      rcases hlast with hr | hs
      · exact ⟨Or.inl ((hidle hr).control rfl rfl rfl rfl hr.best_lt rfl), rfl, fun _ _ => rfl⟩
      · exact absurd hs.outOfMemory.stopped (by rw [hst]; decide)
    · refine ⟨hlast.imp hidle fun hs => ?_, rfl, fun _ _ => rfl⟩
      have ho := hs.outOfMemory
      exact hs.control rfl ⟨ho.shape.control rfl, ho.stopped, ho.status, ho.termination⟩
  obtain ⟨hstate, hkept⟩ := hready
  refine ⟨.cons ?_ (hpass.append (.single ?_)), hstate⟩
  · exact ⟨.running hactive _, fun j hj => (by cases hj), Or.inl ⟨hp.count, hp.link⟩⟩
  · exact ⟨hstate.elim (Listed.running · _) (Starved.listed · _), fun j hj => (by cases hj),
      Or.inl hkept⟩

/-- A search is finished from a context whose heap lists the open nodes, apart from the node that
was taken in this round. -/
theorem finishTrace_passes (h : Finishable options c) (node : Option ℕ) (hf : Frontier c node)
    (status : Status) (termination : Termination) (path : Option ℕ)
    (hn : ∀ i, path = some i → i < c.nodeCount) (world : σ) (p : SearchPoint)
    (hp : LinksKept p.2 c) :
    ∃ last, Passes (Next start options.algorithm) p
      (finishTrace node (finishSearch c world status termination path)) last := by
  cases hout : finishSearch c world status termination path with
  | none => exact ⟨p, .nil p⟩
  | some r =>
    obtain ⟨⟨memory, steps, capacity, hlen, he⟩, _⟩ :=
      finishSearch_leaves h status termination path hn world r.1 r.2.1 r.2.2 hout
    have hpl := hf.placed
    have hlisted : Listed (.finished node, r.2.1) := by
      rw [he]
      exact ⟨h.indexed.withPath memory steps capacity hlen, node,
        ⟨⟨hpl.1, hpl.2, hpl.3, hpl.4, hpl.5, hpl.6⟩, hf.ordered⟩,
        fun i hi => Or.inr (Or.inl (congrArg SearchEvent.finished hi))⟩
    refine ⟨_, .single ⟨hlisted, fun j hj => (by cases hj), Or.inl ?_⟩⟩
    show LinksKept p.2 r.2.1
    rw [he]
    exact ⟨hp.count, hp.link⟩

/-- A search is finished after an emission has stopped it, for want of memory or for another
reason. -/
theorem finishTrace_stopped (h : Running true options none c ∨ Starved c) (world : σ) :
    ∃ last, Passes (Next start options.algorithm) (.ready, c)
      (finishTrace none (finishSearch c world c.stopStatus c.stopTermination none)) last := by
  rcases h with hr | hst
  · exact finishTrace_passes hr.finishable none (hr.frontier rfl) _ _ none
      (fun _ hi => by cases hi) world _ (.refl _)
  · rw [hst.outOfMemory.status, hst.outOfMemory.termination, finishSearch_outOfMemory]
    exact ⟨_, .single ⟨hst.listed _, fun j hj => (by cases hj), Or.inl (.refl _)⟩⟩

theorem LinksKept.closeNode {i : ℕ} (hlen : i < c.nodes.length) : LinksKept c (c.closeNode i) := by
  refine ⟨rfl, fun j _ => ?_⟩
  rw [node_closeNode c i j hlen]
  split_ifs with hji
  · rw [hji]
    rfl
  · rfl

/-- The root of the heap is taken from the frontier. -/
theorem Running.takes (h : Running true options none c) (h0 : c.heapCount ≠ 0) (start : StateId) :
    Next start options.algorithm (.ready, c) (.taken (pfHeapPop c).1, (pfHeapPop c).2) := by
  obtain ⟨hroot, _, hi, hf, _, hframe⟩ := pfHeapPop_table h h0
  refine ⟨⟨hi, _, hf, ?_⟩, ?_, Or.inl (.of_erase (by rw [hframe.rest]) fun i _ => hframe.erase i)⟩
  · rintro _ ⟨⟩
    exact Or.inl (congrArg SearchEvent.taken hroot)
  · rintro _ ⟨⟩
    exact ⟨rfl, h.indexed, h.frontier rfl,
      hroot ▸ nextOpen_isNext _ _ ((h.frontier rfl).nextOpen_eq h.indexed h0)⟩

/-- One round of a search. -/
theorem pfSearchRoundTrace_passes (start : StateId) (neighbors : σ → StateId → Enumeration σ)
    (goal : σ → StateId → Bool × σ) (a : Context × σ)
    (h : Running true options none a.1 ∧ a.1.stopped = false) :
    ∃ last, Passes (Next start options.algorithm) (.ready, a.1)
        (pfSearchRoundTrace adapter neighbors goal a) last ∧
      ∀ next, pfSearchRound adapter neighbors goal a = .inl next →
        (Running true options none next.1 ∧ next.1.stopped = false) ∧ last = (.ready, next.1) := by
  obtain ⟨c, world⟩ := a
  obtain ⟨hrun, -⟩ := h
  dsimp only at hrun
  -- a round that leaves the loop
  have hleave (points : List SearchPoint) (out : Finished σ SearchResult)
      (hpass : ∃ last, Passes (Next start options.algorithm) (.ready, c) points last) :
      ∃ last, Passes (Next start options.algorithm) (.ready, c) points last ∧
        ∀ next, (.inr out : (Context × σ) ⊕ Finished σ SearchResult) = .inl next →
          (Running true options none next.1 ∧ next.1.stopped = false) ∧ last = (.ready, next.1) := by
    obtain ⟨last, hpass⟩ := hpass
    exact ⟨last, hpass, fun _ he => by cases he⟩
  unfold pfSearchRound pfSearchRoundTrace
  by_cases h0 : c.heapCount = 0
  · -- no node is left to be taken
    simp only [if_pos h0]
    exact hleave _ _ (finishTrace_passes hrun.finishable none (hrun.frontier rfl) _ _ none
      (fun _ hi => by cases hi) world _ (.refl c))
  simp only [if_neg h0]
  generalize pollCancelled adapter world = poll
  by_cases hpoll : poll.1 = true
  · simp only [if_pos hpoll]
    exact hleave _ _ (finishTrace_passes hrun.finishable none (hrun.frontier rfl) _ _ none
      (fun _ hi => by cases hi) poll.2 _ (.refl c))
  simp only [if_neg hpoll]
  have htakes := hrun.takes h0 start
  obtain ⟨hroot, hlt, hi, hf, htab, hframe⟩ := pfHeapPop_table hrun h0
  obtain ⟨hcount, hfin⟩ := hrun.popped h0
  rw [← hroot] at hlt hf
  generalize pfHeapPop c = popped at hlt hi hf htab hframe hcount hfin htakes ⊢
  obtain ⟨i, p⟩ := popped
  dsimp only at hlt hi hf htab hframe hcount hfin htakes ⊢
  have hlt' : i < p.nodeCount := by rwa [hcount]
  generalize goal poll.2 (p.node i).state = reached
  by_cases hgoal : reached.1 = true
  · -- the node stays as it was taken, and the path leads to it
    simp only [if_pos hgoal]
    apply hleave
    have htotal : Finishable options
        { p with metrics := { p.metrics with totalCost := (p.node i).cost } } :=
      ⟨hfin.options_eq, hi.control rfl, hfin.parent_lt, hfin.best_lt, hfin.generated⟩
    obtain ⟨last, hpass⟩ := finishTrace_passes htotal (some i) (hf.control rfl) .found .goal
      (some i) (fun j hj => Option.some.inj hj ▸ hlt') reached.2 (.taken i, p) ⟨rfl, fun _ _ => rfl⟩
    exact ⟨last, .cons htakes hpass⟩
  simp only [if_neg hgoal]
  by_cases hmax : spent p.options.maxExpanded p.metrics.expanded = true
  · -- the node stays as it was taken, and at best there is a partial path
    simp only [if_pos hmax]
    apply hleave
    obtain ⟨last, hpass⟩ := finishTrace_passes hfin (some i) hf .limitReached .limit none
      (fun _ hi => by cases hi) reached.2 (.taken i, p) (.refl p)
    exact ⟨last, .cons htakes hpass⟩
  -- the node is closed before the adapter is asked for its neighbours
  simp only [if_neg hmax]
  obtain ⟨hclosed, _⟩ := closeNode_running i hrun hi hf hframe hlt htab
  obtain ⟨hpass, hend⟩ := pfExpandTrace_passes adapter neighbors hclosed reached.2 i hlt'
    (.taken i, p) (.closeNode (lt_of_lt_of_le hlt' hi.count_le_length))
  rw [setNode_closed]
  generalize pfExpand adapter neighbors (p.closeNode i) reached.2 i = e at hpass hend ⊢
  by_cases hs : e.1.stopped = true
  · simp only [if_pos hs]
    apply hleave
    obtain ⟨last, hpass'⟩ := finishTrace_stopped hend e.2
    exact ⟨last, .cons htakes (hpass.append hpass')⟩
  · simp only [if_neg hs, List.append_nil]
    refine ⟨_, .cons htakes hpass, ?_⟩
    rintro _ ⟨⟩
    rcases hend with hr | hst
    · exact ⟨⟨hr, by simpa using hs⟩, rfl⟩
    · exact absurd hst.outOfMemory.stopped hs

/-- The start node. -/
theorem pfSearchStart_next (adapter : Adapter σ) (c : Context) (hs : Shape c) (options : Options)
    (world : σ) (start : StateId) :
    Next start options.algorithm (.prepared, pfReset c options)
      (cond (pfSearchStart adapter (pfReset c options) world start).1 .ready .refused,
        (pfSearchStart adapter (pfReset c options) world start).2.1) := by
  have hi := pfReset_indexed c hs options
  have hf := pfReset_frontier c options
  have hp := hf.placed
  unfold pfSearchStart
  dsimp only
  generalize scoreState adapter (pfReset c options).options.algorithm world start = score
  let node : PfNode := {
    state := start, heuristic := score.1
    priority := pfPriority (pfReset c options).options.algorithm 0 score.1 }
  rcases pfAddNode_stored (pfReset c options) hi.stored node
      (fun i h => absurd h (Nat.not_lt_zero i)) with
    ⟨m, hash, cap, he, hst⟩ | ⟨m, hash, cap, nodes, ncap, he, hst, hnew, _⟩
  · rw [he]
    refine ⟨⟨?_, none, ?_, fun i hi => (by cases hi)⟩, fun i hi => (by cases hi),
      Or.inl ⟨rfl, fun _ _ => rfl⟩⟩
    · exact ⟨hst.shape, hst.count_le, hst.half, hst.distinct, hi.sequence, hst.holds⟩
    · exact ⟨⟨hp.1, hp.2, hp.3, hp.4, hp.5, hp.6⟩, hf.ordered⟩
  · have h0 : (pfReset c options).nodeCount = 0 := rfl
    rw [h0] at he hst hnew
    rw [he]
    dsimp only
    let c1 : Context := { pfReset c options with
      memory := m, hash := hash, hashCapacity := cap, nodes := nodes, nodeCapacity := ncap,
      nodeCount := 1 }
    have hnode : c1.node 0 = node := hnew
    have hi1 : Indexed c1 := by
      refine ⟨hst.shape, hst.count_le, hst.half, hst.distinct, fun i hlt => ?_, hst.holds⟩
      obtain rfl : i = 0 := Nat.lt_one_iff.mp hlt
      exact congrArg PfNode.sequence hnode
    have hf1 : Frontier c1 (some 0) :=
      hf.append rfl rfl rfl rfl (fun i h => absurd h (Nat.not_lt_zero i))
    have hopen : (c1.node 0).closed = false := by rw [hnode]
    -- whether the push succeeds or not, the start node is linked
    have hseed (c' : Context) (hn : c'.nodeCount = 1)
        (herase : (c'.node 0).erase = (c1.node 0).erase) :
        Seeded start (pfReset c options) c' :=
      ⟨rfl, hn, (link_of_erase herase).trans (congrArg PfNode.link hnode)⟩
    rcases pfHeapPush_spec c1 hi1 0 Nat.zero_lt_one hopen hf1 with
      ⟨m', hpush⟩ | ⟨m', heap, hcap, nodes', hpush, hi2, hf2, herase⟩
    · rw [hpush]
      refine ⟨⟨hi1.control rfl, some 0, hf1.control rfl, ?_⟩, fun i hi => (by cases hi),
        Or.inr (Or.inl (hseed _ rfl rfl))⟩
      rintro _ ⟨⟩
      exact Or.inr (Or.inr (Or.inl ⟨rfl, rfl⟩))
    · rw [hpush]
      let c2 : Context := { c1 with
        memory := m', heap := heap, heapCapacity := hcap, heapCount := 1, nodes := nodes'
        metrics := { peakAfter c1.metrics 1 with generated := 1 } }
      have hi3 : Indexed c2 := hi2.control rfl
      obtain ⟨best, rank, hcons, _, _, _⟩ := pfConsiderPartial_spec adapter c2 hi3
        (fun i hb => absurd hb (by simp [c2, c1, pfReset])) score.2 0 Nat.zero_lt_one
      show Next start options.algorithm _ (.ready, (pfConsiderPartial adapter c2 score.2 0).1)
      rw [hcons]
      exact ⟨⟨hi3.control rfl, none, hf2.control rfl, fun i hi => (by cases hi)⟩,
        fun i hi => (by cases hi), Or.inr (Or.inl (hseed _ rfl (herase 0)))⟩

/-- The point at which a search is prepared. -/
theorem Listed.prepared (hs : Shape c) (options : Options) :
    Listed (.prepared, pfReset c options) :=
  ⟨pfReset_indexed c hs options, none, pfReset_frontier c options, fun _ hi => by cases hi⟩

/-- Every point of a search but the first one follows from the one before. -/
theorem atrinikPfSearchTrace_passes (hs : Shape c) (fuel : ℕ) (adapter : Option (Adapter σ))
    (start : StateId) (options : Option Options) (world : σ) :
    ∃ last, Passes (Next start (options.getD atrinikPfOptionsInit).algorithm)
      (.prepared, pfReset c (options.getD atrinikPfOptionsInit))
      (atrinikPfSearchTrace fuel c adapter start options world).tail last := by
  unfold atrinikPfSearchTrace
  dsimp only [List.tail_cons]
  generalize options.getD atrinikPfOptionsInit = o
  have hnone : ∃ last : SearchPoint,
      Passes (Next start o.algorithm) (.prepared, pfReset c o) [] last := ⟨_, .nil _⟩
  cases adapter with
  | none => exact hnone
  | some adapter =>
    have hnext := pfSearchStart_next adapter c hs o world start
    dsimp only
    split
    · rename_i neighbors goal _ _
      split_ifs with hvalid hstart
      · rw [hstart] at hnext
        rcases pfSearchStart_agrees adapter c hs o world start with ⟨hfail, _⟩ | ⟨_, hmatch⟩
        · rw [hfail] at hstart
          cases hstart
        obtain ⟨last, hpass, _⟩ := loop_passes (pfSearchRound adapter neighbors goal)
          (pfSearchRoundTrace adapter neighbors goal) (fun a => (SearchEvent.ready, a.1))
          (fun a => Running true o none a.1 ∧ a.1.stopped = false) (fun _ _ => True)
          (fun a ha => by
            obtain ⟨last, hpass, hround⟩ := pfSearchRoundTrace_passes start neighbors goal a ha
            exact ⟨last, hpass, hround, fun _ _ => trivial⟩) fuel
          (pfSearchStart adapter (pfReset c o) world start).2 ⟨hmatch.1, hmatch.2.1⟩
        exact ⟨last, .cons hnext hpass⟩
      · rw [Bool.eq_false_iff.mpr hstart] at hnext
        exact ⟨_, .single hnext⟩
      · exact hnone
    · exact hnone

theorem finishTrace_getLast (points : List SearchPoint) (node : Option ℕ)
    {out : Finished σ SearchResult} {r : SearchResult} {world : σ} (h : out = some (r, c', world)) :
    ∃ p, (points ++ finishTrace node out).getLast? = some p ∧ p.2 = c' := by
  rw [h]
  exact ⟨(.finished node, c'), List.getLast?_concat, rfl⟩

/-- A round that leaves the loop ends with the context that is left behind. -/
theorem pfSearchRoundTrace_getLast (neighbors : σ → StateId → Enumeration σ)
    (goal : σ → StateId → Bool × σ) (a : Context × σ) (r : SearchResult) (world : σ)
    (h : pfSearchRound adapter neighbors goal a = .inr (some (r, c', world))) :
    ∃ p, (pfSearchRoundTrace adapter neighbors goal a).getLast? = some p ∧ p.2 = c' := by
  obtain ⟨c, w⟩ := a
  unfold pfSearchRound at h
  unfold pfSearchRoundTrace
  by_cases h0 : c.heapCount = 0
  · simp only [if_pos h0] at h ⊢
    exact finishTrace_getLast [] _ (Sum.inr.inj h)
  simp only [if_neg h0] at h ⊢
  by_cases hpoll : (pollCancelled adapter w).1 = true
  · simp only [if_pos hpoll] at h ⊢
    exact finishTrace_getLast [] _ (Sum.inr.inj h)
  simp only [if_neg hpoll] at h ⊢
  by_cases hgoal : (goal (pollCancelled adapter w).2
      ((pfHeapPop c).2.node (pfHeapPop c).1).state).1 = true
  · simp only [if_pos hgoal] at h ⊢
    exact finishTrace_getLast [_] _ (Sum.inr.inj h)
  simp only [if_neg hgoal] at h ⊢
  by_cases hmax : spent (pfHeapPop c).2.options.maxExpanded
      (pfHeapPop c).2.metrics.expanded = true
  · simp only [if_pos hmax] at h ⊢
    exact finishTrace_getLast [_] _ (Sum.inr.inj h)
  simp only [if_neg hmax] at h ⊢
  rw [setNode_closed] at h
  by_cases hs : (pfExpand adapter neighbors ((pfHeapPop c).2.closeNode (pfHeapPop c).1)
      (goal (pollCancelled adapter w).2 ((pfHeapPop c).2.node (pfHeapPop c).1).state).2
      (pfHeapPop c).1).1.stopped = true
  · simp only [if_pos hs] at h ⊢
    exact finishTrace_getLast (_ :: pfExpandTrace ..) _ (Sum.inr.inj h)
  · simp only [if_neg hs] at h
    cases h

/-- The last point of a search that comes back is the context that it leaves behind. -/
theorem atrinikPfSearchTrace_getLast (fuel : ℕ) (c : Context) (adapter : Option (Adapter σ))
    (start : StateId) (options : Option Options) (world : σ) (r : SearchResult) (world' : σ)
    (h : atrinikPfSearch fuel (some c) adapter start options world = some (r, some c', world')) :
    ∃ p, (atrinikPfSearchTrace fuel c adapter start options world).getLast? = some p ∧
      p.2 = c' := by
  unfold atrinikPfSearch at h
  unfold atrinikPfSearchTrace
  dsimp only at h ⊢
  generalize options.getD atrinikPfOptionsInit = o at h ⊢
  have hinvalid (hreset : (some ({ status := .invalidInput, termination := .invalidInput },
      some (pfReset c o), world) : Option (SearchResult × Option Context × σ)) =
      some (r, some c', world')) :
      ∃ p, [((.prepared, pfReset c o) : SearchPoint)].getLast? = some p ∧ p.2 = c' := by
    obtain ⟨_, heq⟩ := Prod.mk.inj (Option.some.inj hreset)
    exact ⟨_, rfl, Option.some.inj (Prod.mk.inj heq).1⟩
  cases adapter with
  | none => exact hinvalid h
  | some adapter =>
    dsimp only at h ⊢
    cases hn : adapter.neighbors with
    | none =>
      rw [hn] at h
      exact hinvalid h
    | some neighbors =>
      cases hg : adapter.goal with
      | none =>
        rw [hn, hg] at h
        exact hinvalid h
      | some goal =>
        rw [hn, hg] at h
        dsimp only at h ⊢
        split_ifs at h ⊢ with hvalid hstart
        · obtain ⟨⟨r', last, w⟩, hrun, heq⟩ := Option.map_eq_some_iff.mp h
          obtain ⟨rfl, rfl, rfl⟩ : r' = r ∧ last = c' ∧ w = world' := by simpa using heq
          obtain ⟨p, hp, hlast⟩ := loop_getLast (pfSearchRound adapter neighbors goal)
            (pfSearchRoundTrace adapter neighbors goal) _ (fun p => p.2 = last)
            (fun a ha => pfSearchRoundTrace_getLast neighbors goal a _ _ ha) fuel _
            (Option.join_eq_some_iff.mp hrun)
          refine ⟨p, ?_, hlast⟩
          rw [List.getLast?_cons, List.getLast?_cons, hp]
          rfl
        · rw [finishSearch_outOfMemory] at h
          obtain ⟨_, heq⟩ := Prod.mk.inj (Option.some.inj h)
          exact ⟨_, rfl, Option.some.inj (Prod.mk.inj heq).1⟩
        · exact hinvalid h

/-- A point of a search. -/
theorem listed_of_mem (hs : Shape c) (fuel : ℕ) (adapter : Option (Adapter σ)) (start : StateId)
    (options : Option Options) (world : σ) (p : SearchPoint)
    (hp : p ∈ atrinikPfSearchTrace fuel c adapter start options world) : Listed p := by
  obtain ⟨_, hpass⟩ := atrinikPfSearchTrace_passes hs fuel adapter start options world
  rcases List.mem_cons.mp hp with rfl | hp
  · exact .prepared hs _
  · exact hpass.forall_mem Listed (fun _ _ h => h.listed) p hp

/-- A point of a search and the one after it. -/
theorem next_of_split (hs : Shape c) (fuel : ℕ) (adapter : Option (Adapter σ)) (start : StateId)
    (options : Option Options) (world : σ) (front back : List SearchPoint) (p q : SearchPoint)
    (h : atrinikPfSearchTrace fuel c adapter start options world = front ++ p :: q :: back) :
    Next start (options.getD atrinikPfOptionsInit).algorithm p q := by
  obtain ⟨_, hpass⟩ := atrinikPfSearchTrace_passes hs fuel adapter start options world
  exact hpass.related front p q back h

end LibAtrinik.Pathfinding

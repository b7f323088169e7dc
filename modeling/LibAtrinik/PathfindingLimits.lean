import LibAtrinik.PathfindingMoments

namespace LibAtrinik.Pathfinding

open Trace

variable {σ : Type} {adapter : Adapter σ} {o : Options} {c c' c'' : Context}

/-- Each budget that is set bounds its metric. -/
structure WithinBudgets (options : Options) (metrics : Metrics) : Prop where
  expanded : options.maxExpanded ≠ 0 → metrics.expanded ≤ options.maxExpanded
  generated : options.maxGenerated ≠ 0 → metrics.generated ≤ options.maxGenerated
  examined : options.maxTransitions ≠ 0 → metrics.examinedTransitions ≤ options.maxTransitions
  frontier : options.maxFrontier ≠ 0 → metrics.peakFrontier ≤ options.maxFrontier

/-- The budgets of the operation are `o`, and the metrics of the context are within them. -/
structure Kept (o : Options) (c : Context) : Prop where
  options_eq : c.options = o
  within : WithinBudgets o c.metrics

/-- The budgets, the metrics and the size of the heap are the same. -/
structure Held (c c' : Context) : Prop where
  options : c'.options = c.options
  metrics : c'.metrics = c.metrics
  heapCount : c'.heapCount = c.heapCount

theorem Held.refl (c : Context) : Held c c := ⟨rfl, rfl, rfl⟩

theorem Held.trans (h : Held c c') (h' : Held c' c'') : Held c c'' :=
  ⟨h'.options.trans h.options, h'.metrics.trans h.metrics, h'.heapCount.trans h.heapCount⟩

theorem Kept.of_held (hk : Kept o c) (h : Held c c') : Kept o c' :=
  ⟨h.options.trans hk.options_eq, by rw [h.metrics]; exact hk.within⟩

theorem Kept.stop (hk : Kept o c) (status : Status) (termination : Termination) :
    Kept o (pfStop c status termination) := ⟨hk.options_eq, hk.within⟩

theorem lt_of_not_spent {budget used : ℕ} (h : ¬spent budget used = true) (hb : budget ≠ 0) :
    used < budget := by
  simp only [spent, decide_eq_true_eq, not_and] at h
  exact not_le.mp (h hb)

theorem pfRehash_held (remaining i : ℕ) (c : Context) : Held c (pfRehash c remaining i) ∧
    (pfRehash c remaining i).nodeCount = c.nodeCount := by
  induction remaining generalizing c i with
  | zero => exact ⟨.refl c, rfl⟩
  | succ remaining ih =>
    obtain ⟨h, hn⟩ := ih (i+1) { c with
      hash := c.hash.set (pfHashSlot c (c.node i).state) (i+1) }
    exact ⟨⟨h.options, h.metrics, h.heapCount⟩, hn⟩

theorem pfPrepareHash_held (c : Context) : Held c (pfPrepareHash c).2 ∧
    (pfPrepareHash c).2.nodeCount = c.nodeCount := by
  have hrebuild (capacity : ℕ) : Held c (pfRebuildHash c capacity).2 ∧
      (pfRebuildHash c capacity).2.nodeCount = c.nodeCount := by
    unfold pfRebuildHash
    split_ifs
    · exact ⟨.refl c, rfl⟩
    · cases pfMultiplySize capacity sizeofSize with
      | none => exact ⟨.refl c, rfl⟩
      | some _ =>
        dsimp only
        split_ifs
        · let cleared : Context := { c with
            memory := fun n => c.memory (n+1), hash := List.replicate capacity 0
            hashCapacity := capacity }
          obtain ⟨h, hn⟩ := pfRehash_held c.nodeCount 0 cleared
          exact ⟨⟨h.options, h.metrics, h.heapCount⟩, hn⟩
        · exact ⟨⟨rfl, rfl, rfl⟩, rfl⟩
  unfold pfPrepareHash
  split_ifs
  · exact hrebuild 64
  · exact ⟨.refl c, rfl⟩
  · exact ⟨.refl c, rfl⟩
  · exact hrebuild _

theorem pfReserveNode_held (c : Context) : Held c (pfReserveNode c).2 ∧
    (pfReserveNode c).2.nodeCount = c.nodeCount := by
  unfold pfReserveNode
  split_ifs
  · dsimp only
    cases (pfGrowArray c.memory sizeofPfNode c.nodeCapacity (c.nodeCount+1)).1 <;>
      exact ⟨⟨rfl, rfl, rfl⟩, rfl⟩
  · exact ⟨.refl c, rfl⟩

/-- A node is added or not, and nothing is counted yet. -/
theorem pfAddNode_held (c : Context) (node : PfNode) : Held c (pfAddNode c node).2 ∧
    (pfAddNode c node).2.nodeCount ≤ c.nodeCount+1 := by
  obtain ⟨hprepared, hn⟩ := pfPrepareHash_held c
  obtain ⟨hreserved, hn'⟩ := pfReserveNode_held (pfPrepareHash c).2
  have h := hprepared.trans hreserved
  rw [hn] at hn'
  unfold pfAddNode
  dsimp only
  split_ifs
  · exact ⟨⟨h.options, h.metrics, h.heapCount⟩, by rw [hn']⟩
  · exact ⟨h, by rw [hn']; exact Nat.le_succ _⟩
  · exact ⟨hprepared, by rw [hn]; exact Nat.le_succ _⟩

theorem pfConsiderPartial_held (adapter : Adapter σ) (c : Context) (world : σ) (i : ℕ) :
    Held c (pfConsiderPartial adapter c world i).1 ∧
      (pfConsiderPartial adapter c world i).1.nodes = c.nodes := by
  unfold pfConsiderPartial
  split_ifs
  · dsimp only
    cases c.partialNode with
    | none => exact ⟨⟨rfl, rfl, rfl⟩, rfl⟩
    | some best =>
      dsimp only
      split_ifs
      · exact ⟨⟨rfl, rfl, rfl⟩, rfl⟩
      · exact ⟨.refl c, rfl⟩
  · exact ⟨.refl c, rfl⟩

theorem pfHeapUpLoop_held (fuel : ℕ) (c : Context) (p : ℕ) : Held c (pfHeapUpLoop fuel c p) := by
  induction fuel generalizing c p with
  | zero => exact .refl c
  | succ fuel ih =>
    unfold pfHeapUpLoop
    dsimp only
    split_ifs
    · have h := ih (pfHeapSwap c p ((p-1)/2)) ((p-1)/2)
      exact ⟨h.options, h.metrics, h.heapCount⟩
    · exact .refl c
    · exact .refl c

theorem pfHeapDownLoop_held (fuel : ℕ) (c : Context) (p : ℕ) :
    Held c (pfHeapDownLoop fuel c p) := by
  induction fuel generalizing c p with
  | zero => exact .refl c
  | succ fuel ih =>
    unfold pfHeapDownLoop
    dsimp only
    split_ifs
    · exact .refl c
    · have h := ih (pfHeapSwap c p (pfHeapBest c p)) (pfHeapBest c p)
      exact ⟨h.options, h.metrics, h.heapCount⟩

theorem pfReserveHeap_held (c : Context) : Held c (pfReserveHeap c).2 := by
  unfold pfReserveHeap
  split_ifs
  · dsimp only
    cases (pfGrowArray c.memory sizeofSize c.heapCapacity (c.heapCount+1)).1 <;>
      exact ⟨rfl, rfl, rfl⟩
  · exact .refl c

/-- The size of the heap may be recorded if it is within its budget. -/
theorem Kept.recordPeak (hk : Kept o c) (h : o.maxFrontier ≠ 0 → c.heapCount ≤ o.maxFrontier) :
    Kept o (if c.heapCount > c.metrics.peakFrontier then
      { c with metrics := { c.metrics with peakFrontier := c.heapCount } } else c) := by
  split_ifs
  · have hw := hk.within
    exact ⟨hk.options_eq, hw.expanded, hw.generated, hw.examined, h⟩
  · exact hk

/-- A push that the frontier has room for. -/
theorem Kept.push (hk : Kept o c) (node : ℕ)
    (hroom : o.maxFrontier ≠ 0 → c.heapCount < o.maxFrontier) :
    Kept o (pfHeapPush c node).2 := by
  have hreserved := pfReserveHeap_held c
  unfold pfHeapPush
  generalize pfReserveHeap c = reserved at hreserved ⊢
  dsimp only
  by_cases hok : reserved.1 = true
  swap
  · rw [if_neg hok]
    exact hk.of_held hreserved
  rw [if_pos hok]
  let grown : Context := {
    ({ reserved.2 with heap := reserved.2.heap.set reserved.2.heapCount node } :
      Context).setHeapIndex node (some reserved.2.heapCount) with
    heapCount := reserved.2.heapCount+1 }
  have hup : Held grown (pfHeapUp grown (grown.heapCount-1)) := pfHeapUpLoop_held _ _ _
  have hcount : grown.heapCount = c.heapCount+1 := congrArg (·+1) hreserved.heapCount
  have hraised : Kept o (pfHeapUp grown (grown.heapCount-1)) := by
    have hkept := hk.of_held hreserved
    have hgrown : Kept o grown := ⟨hkept.options_eq, hkept.within⟩
    exact hgrown.of_held hup
  refine hraised.recordPeak fun hb => ?_
  have hlt := hroom hb
  rw [hup.heapCount, hcount]
  omega

theorem pfHeapPop_held (c : Context) : (pfHeapPop c).2.options = c.options ∧
    (pfHeapPop c).2.metrics = c.metrics := by
  unfold pfHeapPop
  dsimp only
  split_ifs
  · exact ⟨(pfHeapDownLoop_held _ _ _).options, (pfHeapDownLoop_held _ _ _).metrics⟩
  · exact ⟨rfl, rfl⟩

/-- A new node is counted after the check of its budget. -/
theorem Kept.countGenerated (hk : Kept o c)
    (hgen : ¬spent o.maxGenerated c.metrics.generated = true) :
    Kept o { c with metrics := { c.metrics with generated := c.metrics.generated+1 } } := by
  have hw := hk.within
  exact ⟨hk.options_eq, hw.expanded, fun hb => lt_of_not_spent hgen hb, hw.examined, hw.frontier⟩

theorem pfFrontierAvailable_room (ho : c.options = o) (h : pfFrontierAvailable c = true)
    (hb : o.maxFrontier ≠ 0) : c.heapCount < o.maxFrontier := by
  simp only [pfFrontierAvailable, ho, decide_eq_true_eq] at h
  exact h.resolve_left hb

theorem pfEmitNew_kept (hk : Kept o c) (world : σ) (t : Transition) (cost : ℕ) :
    Kept o (pfEmitNew adapter c world t cost).2.1 := by
  unfold pfEmitNew
  rw [hk.options_eq]
  by_cases hgen : spent o.maxGenerated c.metrics.generated = true
  · rw [if_pos hgen]
    exact hk.stop _ _
  rw [if_neg hgen]
  cases hroom : pfFrontierAvailable c with
  | false => exact hk.stop _ _
  | true =>
    simp only [Bool.not_true, Bool.false_eq_true, if_false]
    generalize scoreState adapter o.algorithm world t.state = score
    generalize hadd : pfAddNode c _ = added
    have hadded : Held c added.2 := by
      rw [← hadd]
      exact (pfAddNode_held c _).1
    cases added.1 with
    | none => exact (hk.of_held hadded).stop _ _
    | some i =>
      dsimp only
      have hcounted := (hk.of_held hadded).countGenerated (by rwa [hadded.metrics])
      have hconsidered := (pfConsiderPartial_held adapter { added.2 with metrics := {
        added.2.metrics with generated := added.2.metrics.generated+1 } } score.2 i).1
      have hpushed := (hcounted.of_held hconsidered).push i fun hb => by
        rw [hconsidered.heapCount]
        show added.2.heapCount < _
        rw [hadded.heapCount]
        exact pfFrontierAvailable_room hk.options_eq hroom hb
      split_ifs
      · exact hpushed
      · exact hpushed.stop _ _

theorem pfEmitImproved_kept (hk : Kept o c) (world : σ) (t : Transition) (cost i : ℕ) :
    Kept o (pfEmitImproved adapter c world t cost i).2.1 := by
  unfold pfEmitImproved
  dsimp only
  by_cases hfull : ((c.node i).closed && !pfFrontierAvailable c) = true
  · rw [if_pos hfull]
    exact hk.stop _ _
  rw [if_neg hfull]
  let written := c.setNode i ((c.node i).improved c.options.algorithm cost t c.activeNode)
  have hwritten : Held c written := ⟨rfl, rfl, rfl⟩
  obtain ⟨hheld, hnodes⟩ := pfConsiderPartial_held adapter written world i
  have hconsidered := hwritten.trans hheld
  have hclosed : ((pfConsiderPartial adapter written world i).1.node i).closed =
      (c.node i).closed := by
    unfold Context.node
    rw [hnodes]
    by_cases hi : i < c.nodes.length
    · rw [show written.nodes = c.nodes.set i _ from rfl, List.getD_eq_getElem?_getD,
        List.getElem?_set_self hi]
      rfl
    · rw [show written.nodes = c.nodes.set i _ from rfl, List.set_eq_of_length_le (not_lt.mp hi)]
  show Kept o (if ((pfConsiderPartial adapter written world i).1.node i).closed = true then _
    else _ : Bool × Context × σ).2.1
  rw [hclosed]
  generalize pfConsiderPartial adapter written world i = considered at hconsidered ⊢
  have hkept := hk.of_held hconsidered
  cases hc : (c.node i).closed with
  | true =>
    have hroom : pfFrontierAvailable c = true := by simpa [hc] using hfull
    have hreopened : Kept o (considered.1.setNode i (considered.1.node i).reopened) :=
      ⟨hkept.options_eq, hkept.within⟩
    have hpushed := hreopened.push i fun hb => by
      show considered.1.heapCount < _
      rw [hconsidered.heapCount]
      exact pfFrontierAvailable_room hk.options_eq hroom hb
    simp only [if_true]
    split_ifs
    · exact hpushed
    · exact hpushed.stop _ _
  | false =>
    simp only [Bool.false_eq_true, if_false]
    exact hkept.of_held (pfHeapUpLoop_held _ _ _)

theorem pfEmitSearch_kept (hk : Kept o c) (world : σ) (t : Transition) :
    Kept o (pfEmitSearch adapter c world t).2.1 := by
  unfold pfEmitSearch
  dsimp only
  split_ifs
  · exact hk.stop _ _
  · cases pfFindNode c t.state with
    | none => exact pfEmitNew_kept hk world t _
    | some i =>
      dsimp only
      split_ifs
      · exact hk
      · exact pfEmitImproved_kept hk world t _ i

theorem pfEmitReachable_kept (hk : Kept o c) (t : Transition) :
    Kept o (pfEmitReachable c t).2 := by
  unfold pfEmitReachable
  rw [hk.options_eq]
  by_cases hfind : (pfFindNode c t.state).isSome = true
  · rw [if_pos hfind]
    exact hk
  by_cases hgen : spent o.maxGenerated c.metrics.generated = true
  · rw [if_neg hfind, if_pos hgen]
    exact hk.stop _ _
  by_cases hfull : spent o.maxFrontier (c.nodeCount-c.metrics.expanded) = true
  · rw [if_neg hfind, if_neg hgen, if_pos hfull]
    exact hk.stop _ _
  rw [if_neg hfind, if_neg hgen, if_neg hfull]
  dsimp only
  generalize hadd : pfAddNode c _ = added
  have hadded : Held c added.2 ∧ added.2.nodeCount ≤ c.nodeCount+1 := by
    rw [← hadd]
    exact pfAddNode_held c _
  obtain ⟨hheld, hcount⟩ := hadded
  cases added.1 with
  | none => exact (hk.of_held hheld).stop _ _
  | some i =>
    have hcounted := (hk.of_held hheld).countGenerated (by rwa [hheld.metrics])
    have hw := hcounted.within
    refine ⟨hcounted.options_eq, hw.expanded, hw.generated, hw.examined, fun hb => ?_⟩
    have hlt := lt_of_not_spent hfull hb
    have hpeak := hw.frontier hb
    have hexp : added.2.metrics.expanded = c.metrics.expanded := by rw [hheld.metrics]
    dsimp only at hpeak ⊢
    rw [hexp]
    split_ifs
    · omega
    · exact hpeak

/-- An emission keeps the budgets, whatever state the operation is in. -/
theorem pfEmitTransition_kept (adapter : Adapter σ) (hk : Kept o c) (world : σ)
    (t : Option Transition) :
    Kept o (pfEmitTransition adapter c world t).2.1 := by
  unfold pfEmitTransition
  by_cases hs : c.stopped = true
  · rw [if_pos hs]
    exact hk
  rw [if_neg hs]
  cases t with
  | none => exact hk.stop _ _
  | some t =>
    dsimp only
    by_cases hpoll : (pollCancelled adapter world).1 = true
    · rw [if_pos hpoll]
      exact hk.stop _ _
    by_cases hmax : spent c.options.maxTransitions c.metrics.examinedTransitions = true
    · rw [if_neg hpoll, if_pos hmax]
      exact hk.stop _ _
    rw [if_neg hpoll, if_neg hmax]
    have hcounted : Kept o c.countExamined := by
      have hw := hk.within
      rw [hk.options_eq] at hmax
      exact ⟨hk.options_eq, hw.expanded, hw.generated, fun hb => lt_of_not_spent hmax hb,
        hw.frontier⟩
    split_ifs
    · exact pfEmitReachable_kept hcounted t
    · exact pfEmitSearch_kept hcounted _ t

theorem Enumeration.points_kept (e : Enumeration σ) (c : Context) (hk : Kept o c) :
    ∀ p ∈ e.points (pfEmitTransition adapter) c, Kept o p := by
  induction e generalizing c with
  | finish enumerated world => exact fun p hp => absurd hp List.not_mem_nil
  | emit transition world resume ih =>
    have hnext := pfEmitTransition_kept adapter hk world transition
    intro p hp
    rcases List.mem_cons.mp hp with rfl | hp
    · exact hnext
    · exact ih _ _ _ hnext p hp

theorem pfExpand_kept (adapter : Adapter σ) (neighbors : σ → StateId → Enumeration σ)
    (hk : Kept o c) (world : σ) (i : ℕ) :
    (∀ p ∈ pfExpandPoints adapter neighbors c world i, Kept o p) ∧
      Kept o (pfExpand adapter neighbors c world i).1 := by
  have hactive : Kept o { c with activeNode := some i } := ⟨hk.options_eq, hk.within⟩
  have hlast : Kept o (pfExpand adapter neighbors c world i).1 := by
    have hrun := (neighbors world (c.node i).state).run_invariant (pfEmitTransition adapter) (Kept o)
      (fun _ w t h => pfEmitTransition_kept adapter h w t) _ hactive
    unfold pfExpand
    dsimp only
    split_ifs
    · exact ⟨hrun.options_eq, hrun.within⟩
    · exact ⟨hrun.options_eq, hrun.within⟩
  refine ⟨fun p hp => ?_, hlast⟩
  rcases List.mem_cons.mp hp with rfl | hp
  · exact hactive
  · rcases List.mem_append.mp hp with hp | hp
    · exact Enumeration.points_kept _ _ hactive p hp
    · rw [List.mem_singleton.mp hp]
      exact hlast

theorem Kept.expand (hk : Kept o c) (hmax : ¬spent o.maxExpanded c.metrics.expanded = true) :
    Kept o { c with metrics := { c.metrics with expanded := c.metrics.expanded+1 } } := by
  have hw := hk.within
  exact ⟨hk.options_eq, fun hb => lt_of_not_spent hmax hb, hw.generated, hw.examined, hw.frontier⟩

/-- What comes back is within the budgets. -/
def LeftWithin (o : Options) (out : Finished σ SearchResult) : Prop :=
  ∀ r c world, out = some (r, c, world) → Kept o c ∧ WithinBudgets o r.metrics

theorem WithinBudgets.withCost {metrics : Metrics} (h : WithinBudgets o metrics) (n : ℕ) :
    WithinBudgets o { metrics with totalCost := n } :=
  ⟨h.expanded, h.generated, h.examined, h.frontier⟩

theorem pfFinishPath_kept (hk : Kept o c) (result : SearchResult)
    (hr : WithinBudgets o result.metrics) (i : ℕ) (r : SearchResult) (c' : Context)
    (h : pfFinishPath c result i = some (r, c')) : Kept o c' ∧ WithinBudgets o r.metrics := by
  have hreserved (count : ℕ) : Held c (pfReservePath c count).2 := by
    unfold pfReservePath
    split_ifs
    · dsimp only
      cases (pfGrowArray c.memory sizeofStep c.pathCapacity count).1 <;> exact ⟨rfl, rfl, rfl⟩
    · exact .refl c
  obtain ⟨built, hbuilt, heq⟩ := Option.map_eq_some_iff.mp h
  unfold pfBuildPath at hbuilt
  cases hcount : pfPathCount c c.nodeCount (some i) 0 with
  | none =>
    rw [hcount] at hbuilt
    cases hbuilt
  | some count =>
    rw [hcount] at hbuilt
    have hkept := hk.of_held (hreserved count)
    dsimp only at hbuilt
    split_ifs at hbuilt
    · rw [← Option.some.inj hbuilt] at heq
      obtain ⟨rfl, rfl⟩ := Prod.mk.inj heq
      exact ⟨⟨hkept.options_eq, hkept.within⟩, hr.withCost _⟩
    · rw [← Option.some.inj hbuilt] at heq
      obtain ⟨rfl, rfl⟩ := Prod.mk.inj heq
      exact ⟨hkept, hkept.within⟩

theorem finishSearch_kept (hk : Kept o c) (world : σ) (status : Status) (termination : Termination)
    (node : Option ℕ) : LeftWithin o (finishSearch c world status termination node) := by
  intro r c' world' h
  obtain ⟨⟨r', c''⟩, hfinish, heq⟩ := Option.map_eq_some_iff.mp h
  obtain ⟨rfl, rfl, rfl⟩ : r' = r ∧ c'' = c' ∧ world = world' := by simpa using heq
  unfold pfFinishSearch at hfinish
  dsimp only at hfinish
  have hplain (he : (some ({ status := status, termination := termination, metrics := c.metrics }, c)
      : Option (SearchResult × Context)) = some (r', c'')) :
      Kept o c'' ∧ WithinBudgets o r'.metrics := by
    obtain ⟨rfl, rfl⟩ := Prod.mk.inj (Option.some.inj he)
    exact ⟨hk, hk.within⟩
  cases node with
  | some i => exact pfFinishPath_kept hk _ hk.within i r' c'' hfinish
  | none =>
    cases hb : c.partialNode with
    | none =>
      rw [hb] at hfinish
      exact hplain hfinish
    | some best =>
      rw [hb] at hfinish
      dsimp only at hfinish
      split_ifs at hfinish
      · exact pfFinishPath_kept hk _ hk.within best r' c'' hfinish
      · exact hplain hfinish

theorem pfSearchRound_kept (adapter : Adapter σ) (neighbors : σ → StateId → Enumeration σ)
    (goal : σ → StateId → Bool × σ) (a : Context × σ) (hk : Kept o a.1) :
    (∀ p ∈ pfSearchRoundPoints adapter neighbors goal a, Kept o p) ∧
      (∀ next, pfSearchRound adapter neighbors goal a = .inl next → Kept o next.1) ∧
      ∀ out, pfSearchRound adapter neighbors goal a = .inr out → LeftWithin o out := by
  obtain ⟨c, world⟩ := a
  dsimp only at hk
  have hleave (points : List Context) (hpoints : ∀ p ∈ points, Kept o p)
      (out : Finished σ SearchResult) (hout : LeftWithin o out) :
      (∀ p ∈ points, Kept o p) ∧
        (∀ next, (.inr out : (Context × σ) ⊕ Finished σ SearchResult) = .inl next →
          Kept o next.1) ∧
        ∀ out', (.inr out : (Context × σ) ⊕ Finished σ SearchResult) = .inr out' →
          LeftWithin o out' :=
    ⟨hpoints, fun _ he => (by cases he), fun _ he => Sum.inr.inj he ▸ hout⟩
  have hround := pfSearchRound_round adapter neighbors goal c world
  generalize pfSearchRoundPoints adapter neighbors goal (c, world) = points at hround ⊢
  generalize pfSearchRound adapter neighbors goal (c, world) = result at hround ⊢
  -- a node that is taken is only counted once it is closed
  have htaken {i : ℕ} {p : Context} {w : σ} (ht : Takes adapter c world i p w) : Kept o p := by
    obtain ⟨ho, hm⟩ := pfHeapPop_held c
    rw [ht.pop] at ho hm
    exact ⟨ho.trans hk.options_eq, hm ▸ hk.within⟩
  have hexpanded {i : ℕ} {p : Context} {w w' : σ} {e : Context × σ}
      (ht : Takes adapter c world i p w)
      (hmax : ¬spent p.options.maxExpanded p.metrics.expanded = true)
      (he : pfExpand adapter neighbors (p.closeNode i) w' i = e) :
      (∀ q ∈ p :: p.closeNode i :: pfExpandPoints adapter neighbors (p.closeNode i) w' i,
        Kept o q) ∧ Kept o e.1 := by
    have hp := htaken ht
    rw [hp.options_eq] at hmax
    have hcounted := hp.expand hmax
    have hclosed : Kept o (p.closeNode i) := ⟨hcounted.options_eq, hcounted.within⟩
    obtain ⟨hpoints, hlast⟩ := pfExpand_kept adapter neighbors hclosed w' i
    rw [he] at hlast
    exact ⟨List.forall_mem_cons.mpr ⟨hp, List.forall_mem_cons.mpr ⟨hclosed, hpoints⟩⟩, hlast⟩
  cases hround with
  | exhausted => exact hleave [] (by simp) _ (finishSearch_kept hk _ _ _ _)
  | cancelled => exact hleave [] (by simp) _ (finishSearch_kept hk _ _ _ _)
  | found i p p' w w' ht _ hp =>
    have hcost : Kept o p' := by
      rw [← hp]
      exact ⟨(htaken ht).options_eq, (htaken ht).within.withCost _⟩
    refine hleave [p, p'] ?_ _ (finishSearch_kept hcost _ _ _ _)
    intro q hq
    rcases List.mem_pair.mp hq with rfl | rfl
    · exact htaken ht
    · exact hcost
  | limited i p w w' ht =>
    exact hleave [p] (by simpa using htaken ht) _ (finishSearch_kept (htaken ht) _ _ _ _)
  | stopped i p w w' e ht _ hmax he =>
    obtain ⟨hpoints, hlast⟩ := hexpanded ht hmax he
    exact hleave _ hpoints _ (finishSearch_kept hlast _ _ _ _)
  | expanded i p w w' e ht _ hmax he =>
    obtain ⟨hpoints, hlast⟩ := hexpanded ht hmax he
    refine ⟨hpoints, ?_, fun _ he => (by cases he)⟩
    rintro _ ⟨⟩
    exact hlast

theorem pfReachableFinish_kept (hk : Kept o c) (world : σ) :
    Kept o (pfReachableFinish c world).2.1 ∧
      WithinBudgets o (pfReachableFinish c world).1.metrics := by
  have hresult (last : Context) (states : List StateId) (h : Kept o last) :
      WithinBudgets o (pfReachableResult last states).metrics := by
    unfold pfReachableResult
    split_ifs <;> exact h.within
  have hreserved : Held c (pfReserveReachable c).2 := by
    unfold pfReserveReachable
    split_ifs
    · exact .refl c
    · dsimp only
      cases (pfGrowArray c.memory sizeofStateId c.reachableCapacity c.nodeCount).1 <;>
        exact ⟨rfl, rfl, rfl⟩
  have hkept := hk.of_held hreserved
  unfold pfReachableFinish
  dsimp only
  split_ifs
  · have hcopied : Kept o (pfCopyReachable (pfReserveReachable c).2) :=
      ⟨hkept.options_eq, hkept.within⟩
    exact ⟨hcopied, hresult _ _ hcopied⟩
  · exact ⟨hkept.stop _ _, hresult _ _ (hkept.stop _ _)⟩

theorem pfReachableRound_kept (adapter : Adapter σ) (neighbors : σ → StateId → Enumeration σ)
    (a : ℕ × Context × σ)
    (hk : Kept o a.2.1) :
    (∀ p ∈ pfReachableRoundPoints adapter neighbors a, Kept o p.2) ∧
      (∀ next, pfReachableRound adapter neighbors a = .inl next → Kept o next.2.1) ∧
      ∀ out, pfReachableRound adapter neighbors a = .inr out →
        WithinBudgets o out.1.metrics := by
  obtain ⟨cursor, c, world⟩ := a
  dsimp only at hk
  have hround := pfReachableRound_round adapter neighbors cursor c world
  generalize pfReachableRoundPoints adapter neighbors (cursor, c, world) = points at hround ⊢
  generalize pfReachableRound adapter neighbors (cursor, c, world) = result at hround ⊢
  have hexpanded {w : σ} {counted : Context} {e : Context × σ}
      (hmax : ¬spent c.options.maxExpanded c.metrics.expanded = true)
      (hc : { c with metrics := { c.metrics with expanded := c.metrics.expanded+1 } } = counted)
      (he : pfExpand adapter neighbors counted w cursor = e) :
      Kept o counted ∧ (∀ p ∈ (pfExpandPoints adapter neighbors counted w cursor).map
        ((cursor+1, ·) : Context → ℕ × Context), Kept o p.2) ∧ Kept o e.1 := by
    rw [hk.options_eq] at hmax
    have hcounted : Kept o counted := hc ▸ hk.expand hmax
    obtain ⟨hpoints, hlast⟩ := pfExpand_kept adapter neighbors hcounted w cursor
    rw [he] at hlast
    refine ⟨hcounted, fun p hp => ?_, hlast⟩
    obtain ⟨q, hq, rfl⟩ := List.mem_map.mp hp
    exact hpoints q hq
  cases hround with
  | exhausted =>
    obtain ⟨hlast, hresult⟩ := pfReachableFinish_kept hk world
    refine ⟨fun p hp => ?_, fun _ he => (by cases he), fun _ he => Sum.inr.inj he ▸ hresult⟩
    rw [List.mem_singleton.mp hp]
    exact hlast
  | refused w status termination stopped hs =>
    have hstopped : Kept o stopped := hs ▸ hk.stop status termination
    obtain ⟨hlast, hresult⟩ := pfReachableFinish_kept hstopped w
    refine ⟨fun p hp => ?_, fun _ he => (by cases he), fun _ he => Sum.inr.inj he ▸ hresult⟩
    rcases List.mem_pair.mp hp with rfl | rfl
    · exact hstopped
    · exact hlast
  | stopped w counted e _ hmax hc he =>
    obtain ⟨hcounted, hpoints, hend⟩ := hexpanded hmax hc he
    obtain ⟨hlast, hresult⟩ := pfReachableFinish_kept hend e.2
    refine ⟨fun p hp => ?_, fun _ he => (by cases he), fun _ he => Sum.inr.inj he ▸ hresult⟩
    rcases List.mem_cons.mp hp with rfl | hp
    · exact hcounted
    · rcases List.mem_append.mp hp with hp | hp
      · exact hpoints p hp
      · rw [List.mem_singleton.mp hp]
        exact hlast
  | expanded w counted e _ hmax hc he =>
    obtain ⟨hcounted, hpoints, hend⟩ := hexpanded hmax hc he
    refine ⟨List.forall_mem_cons.mpr ⟨hcounted, hpoints⟩, ?_, fun _ he => (by cases he)⟩
    rintro _ ⟨⟩
    exact hend

theorem withinBudgets_zero (o : Options) : WithinBudgets o {} :=
  ⟨fun _ => Nat.zero_le _, fun _ => Nat.zero_le _, fun _ => Nat.zero_le _, fun _ => Nat.zero_le _⟩

theorem pfSearchStart_kept (adapter : Adapter σ) (c : Context) (world : σ) (start : StateId) :
    Kept o (pfSearchStart adapter (pfReset c o) world start).2.1 := by
  have hk : Kept o (pfReset c o) := ⟨rfl, withinBudgets_zero o⟩
  unfold pfSearchStart
  dsimp only
  generalize scoreState adapter _ world start = score
  generalize hadd : pfAddNode (pfReset c o) _ = added
  have hadded : Held (pfReset c o) added.2 := by
    rw [← hadd]
    exact (pfAddNode_held _ _).1
  cases added.1 with
  | none => exact hk.of_held hadded
  | some i =>
    have hpushed := (hk.of_held hadded).push i fun hb => by
      rw [hadded.heapCount]
      exact Nat.pos_of_ne_zero hb
    dsimp only
    split_ifs
    · have hw := hpushed.within
      have hcounted : Kept o { (pfHeapPush added.2 i).2 with metrics := {
          (pfHeapPush added.2 i).2.metrics with generated := 1 } } :=
        ⟨hpushed.options_eq, hw.expanded, Nat.pos_of_ne_zero, hw.examined, hw.frontier⟩
      exact hcounted.of_held (pfConsiderPartial_held adapter _ score.2 i).1
    · exact hpushed

/-- No moment of a search exceeds a budget, and neither does its result. -/
theorem atrinikPfSearch_within (fuel : ℕ) (c : Context) (adapter : Option (Adapter σ))
    (start : StateId) (options : Option Options) (world : σ) :
    (∀ p ∈ atrinikPfSearchMoments fuel c adapter start options world,
      WithinBudgets (options.getD atrinikPfOptionsInit) p.context.metrics) ∧
    ∀ r c' world', atrinikPfSearch fuel (some c) adapter start options world =
      some (r, c', world') → WithinBudgets (options.getD atrinikPfOptionsInit) r.metrics := by
  have hcall := atrinikPfSearch_call fuel c adapter start options world
  generalize options.getD atrinikPfOptionsInit = o at hcall ⊢
  generalize atrinikPfSearchMoments fuel c adapter start options world = moments at hcall ⊢
  generalize atrinikPfSearch fuel (some c) adapter start options world = out at hcall ⊢
  have hfresh : WithinBudgets o (pfReset c o).metrics := withinBudgets_zero o
  have hstart (a : Adapter σ) : Kept o (pfSearchStart a (pfReset c o) world start).2.1 :=
    pfSearchStart_kept a c world start
  cases hcall with
  | rejected =>
    refine ⟨fun p hp => ?_, fun r c' world' h => ?_⟩
    · rw [List.mem_singleton.mp hp]
      exact hfresh
    · rw [← (Prod.mk.inj (Option.some.inj h)).1]
      exact withinBudgets_zero o
  | unstarted adapter started w hfail =>
    have hstarted : Kept o started := by simpa only [hfail] using hstart adapter
    refine ⟨fun p hp => ?_, fun r c' world' h => ?_⟩
    · rcases List.mem_pair.mp hp with rfl | rfl
      · exact hfresh
      · exact hstarted.within
    · rw [← (Prod.mk.inj (Option.some.inj h)).1]
      exact hstarted.within
  | ran adapter neighbors goal _ _ started hok =>
    have hstarted : Kept o started.1 := by simpa only [hok] using hstart adapter
    have hround := pfSearchRound_kept (o := o) adapter neighbors goal
    have hpoints := loop_forall (pfSearchRound adapter neighbors goal)
      (pfSearchRoundPoints adapter neighbors goal) (fun a => Kept o a.1) (Kept o)
      (fun a ha => ⟨(hround a ha).1, (hround a ha).2.1⟩) fuel started hstarted
    have hleft (out : Finished σ SearchResult)
        (he : FuelLoop.run (pfSearchRound adapter neighbors goal) fuel started = some out) :
        LeftWithin o out := by
      obtain ⟨last, hlast, hend⟩ := FuelLoop.run_invariant _ (fun a => Kept o a.1)
        (fun a next ha hnext => (hround a ha).2.1 next hnext) fuel started out hstarted he
      exact (hround last hlast).2.2 out hend
    refine ⟨fun p hp => ?_, fun r c' world' h => ?_⟩
    · rcases List.mem_cons.mp hp with rfl | hp
      · exact hfresh
      · obtain ⟨q, hq, rfl⟩ := List.mem_map.mp hp
        rcases List.mem_cons.mp hq with rfl | hq
        · exact hstarted.within
        · rcases List.mem_append.mp hq with hq | hq
          · exact (hpoints q hq).within
          · obtain ⟨⟨r, c', w⟩, hmem, rfl⟩ := List.mem_map.mp hq
            have hrun := Option.join_eq_some_iff.mp (Option.mem_toList.mp hmem)
            exact (hleft _ hrun r c' w rfl).1.within
    · obtain ⟨⟨r', last, w⟩, hrun, heq⟩ := Option.map_eq_some_iff.mp h
      obtain ⟨rfl, _⟩ := Prod.mk.inj heq
      exact (hleft _ (Option.join_eq_some_iff.mp hrun) r' last w rfl).2

/-- No moment of a traversal exceeds a budget, and neither does its result. -/
theorem atrinikPfReachable_within (fuel : ℕ) (c : Context) (adapter : Option (Adapter σ))
    (start : StateId) (options : Option Options) (world : σ) :
    (∀ p ∈ atrinikPfReachableMoments fuel c adapter start options world,
      WithinBudgets (options.getD atrinikPfOptionsInit) p.context.metrics) ∧
    ∀ r c' world', atrinikPfReachable fuel (some c) adapter start options world =
      some (r, c', world') → WithinBudgets (options.getD atrinikPfOptionsInit) r.metrics := by
  have hcall := atrinikPfReachable_call fuel c adapter start options world
  generalize options.getD atrinikPfOptionsInit = o at hcall ⊢
  generalize atrinikPfReachableMoments fuel c adapter start options world = moments at hcall ⊢
  generalize atrinikPfReachable fuel (some c) adapter start options world = out at hcall ⊢
  have hfresh : Kept o { pfReset c o with reachability := true } := ⟨rfl, withinBudgets_zero o⟩
  generalize ({ pfReset c o with reachability := true } : Context) = fresh at hfresh hcall
  have hadded := hfresh.of_held (pfAddNode_held fresh { state := start }).1
  cases hcall with
  | rejected =>
    refine ⟨fun p hp => ?_, fun r c' world' h => ?_⟩
    · rw [List.mem_singleton.mp hp]
      exact hfresh.within
    · rw [← (Prod.mk.inj (Option.some.inj h)).1]
      exact withinBudgets_zero o
  | unstarted adapter added hadd =>
    rw [hadd] at hadded
    refine ⟨fun p hp => ?_, fun r c' world' h => ?_⟩
    · rcases List.mem_pair.mp hp with rfl | rfl
      · exact hfresh.within
      · exact hadded.within
    · rw [← (Prod.mk.inj (Option.some.inj h)).1]
      exact withinBudgets_zero o
  | ran adapter neighbors _ i added started hadd hcounted =>
    rw [hadd] at hadded
    have hw := hadded.within
    have hstarted : Kept o started := by
      rw [← hcounted]
      exact ⟨hadded.options_eq, hw.expanded, Nat.pos_of_ne_zero, hw.examined, Nat.pos_of_ne_zero⟩
    have hround := pfReachableRound_kept (o := o) adapter neighbors
    have hpoints := loop_forall (pfReachableRound adapter neighbors)
      (pfReachableRoundPoints adapter neighbors) (fun a => Kept o a.2.1) (fun p => Kept o p.2)
      (fun a ha => ⟨(hround a ha).1, (hround a ha).2.1⟩) fuel (0, started, world) hstarted
    refine ⟨fun p hp => ?_, fun r c' world' h => ?_⟩
    · rcases List.mem_cons.mp hp with rfl | hp
      · exact hfresh.within
      · obtain ⟨q, hq, rfl⟩ := List.mem_map.mp hp
        rcases List.mem_cons.mp hq with rfl | hq
        · exact hstarted.within
        · exact (hpoints q hq).within
    · obtain ⟨out, hrun, heq⟩ := Option.map_eq_some_iff.mp h
      obtain ⟨rfl, _⟩ := Prod.mk.inj heq
      obtain ⟨last, hlast, hend⟩ := FuelLoop.run_invariant _ (fun a => Kept o a.2.1)
        (fun a next ha hnext => (hround a ha).2.1 next hnext) fuel (0, started, world) out
        hstarted hrun
      exact (hround last hlast).2.2 out hend

end LibAtrinik.Pathfinding

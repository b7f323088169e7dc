import LibAtrinik.PathfindingComplete

namespace LibAtrinik.Pathfinding

variable {σ : Type} {o o' : Options}

/-- A budget raised, or set to zero, which lifts it. -/
def Raised (budget budget' : ℕ) : Prop := budget' = 0 ∨ (budget ≠ 0 ∧ budget ≤ budget')

structure Options.RaisedTo (o o' : Options) : Prop where
  algorithm : o'.algorithm = o.algorithm
  returnPartial : o'.returnPartial = o.returnPartial
  maxExpanded : Raised o.maxExpanded o'.maxExpanded
  maxGenerated : Raised o.maxGenerated o'.maxGenerated
  maxTransitions : Raised o.maxTransitions o'.maxTransitions
  maxFrontier : Raised o.maxFrontier o'.maxFrontier

theorem Raised.not_spent {budget budget' used : ℕ} (h : Raised budget budget')
    (hs : ¬spent budget used = true) : ¬spent budget' used = true := by
  simp only [spent, decide_eq_true_eq] at hs ⊢
  rcases h with h | ⟨h, h'⟩ <;> omega

/-- The run has been stopped by a budget. -/
def LimitStopped (table : Table) : Prop := table.stop = some (.limitReached, .limit)

/-- Two emissions do the same, unless the first one is stopped by a budget. -/
def SameOrLimited (r r' : Bool × Table × σ) : Prop := LimitStopped r.2.1 ∨ r = r'

theorem considerPartial_raised (h : o.RaisedTo o') (table : Table) (adapter : Adapter σ)
    (world : σ) (i : ℕ) :
    table.considerPartial adapter o' world i = table.considerPartial adapter o world i := by
  simp only [Table.considerPartial, h.returnPartial]

theorem emitNew_raised (h : o.RaisedTo o') (table : Table) (adapter : Adapter σ) (active : ℕ)
    (world : σ) (t : Transition) (cost : ℕ) :
    SameOrLimited (table.emitNew adapter o active world t cost)
      (table.emitNew adapter o' active world t cost) := by
  unfold Table.emitNew
  simp only [h.algorithm, considerPartial_raised h]
  by_cases hgen : spent o.maxGenerated table.metrics.generated = true
  · rw [if_pos hgen]
    exact Or.inl rfl
  by_cases hfull : spent o.maxFrontier (openCount table.nodes) = true
  · rw [if_neg hgen, if_pos hfull]
    exact Or.inl rfl
  rw [if_neg hgen, if_neg hfull, if_neg (h.maxGenerated.not_spent hgen),
    if_neg (h.maxFrontier.not_spent hfull)]
  exact Or.inr rfl

theorem emitImproved_raised (h : o.RaisedTo o') (table : Table) (adapter : Adapter σ) (active : ℕ)
    (world : σ) (t : Transition) (cost i : ℕ) :
    SameOrLimited (table.emitImproved adapter o active world t cost i)
      (table.emitImproved adapter o' active world t cost i) := by
  unfold Table.emitImproved
  simp only [h.algorithm, considerPartial_raised h]
  by_cases hfull : ((nodeAt table.nodes i).closed &&
      spent o.maxFrontier (openCount table.nodes)) = true
  · rw [if_pos hfull]
    exact Or.inl rfl
  · have hfull' : ¬((nodeAt table.nodes i).closed &&
        spent o'.maxFrontier (openCount table.nodes)) = true := by
      rw [Bool.and_eq_true_iff] at hfull ⊢
      rintro ⟨hc, hs⟩
      exact h.maxFrontier.not_spent (fun hs' => hfull ⟨hc, hs'⟩) hs
    rw [if_neg hfull, if_neg hfull']
    exact Or.inr rfl

theorem emitSearch_raised (h : o.RaisedTo o') (table : Table) (adapter : Adapter σ) (active : ℕ)
    (world : σ) (t : Transition) :
    SameOrLimited (table.emitSearch adapter o active world t)
      (table.emitSearch adapter o' active world t) := by
  unfold Table.emitSearch
  simp only [h.algorithm]
  split_ifs
  · exact Or.inr rfl
  · cases findState table.nodes t.state with
    | none => exact emitNew_raised h table adapter active world t _
    | some i =>
      dsimp only
      split_ifs
      · exact Or.inr rfl
      · exact emitImproved_raised h table adapter active world t _ i

theorem emitReachable_raised (h : o.RaisedTo o') (table : Table) (active : ℕ) (world : σ)
    (t : Transition) :
    SameOrLimited ((table.emitReachable o active t).1, (table.emitReachable o active t).2, world)
      ((table.emitReachable o' active t).1, (table.emitReachable o' active t).2, world) := by
  unfold Table.emitReachable
  by_cases hf : (findState table.nodes t.state).isSome = true
  · rw [if_pos hf, if_pos hf]
    exact Or.inr rfl
  by_cases hgen : spent o.maxGenerated table.metrics.generated = true
  · rw [if_neg hf, if_pos hgen]
    exact Or.inl rfl
  by_cases hfull : spent o.maxFrontier (table.nodes.length-table.metrics.expanded) = true
  · rw [if_neg hf, if_neg hgen, if_pos hfull]
    exact Or.inl rfl
  rw [if_neg hf, if_neg hf, if_neg hgen, if_neg hfull, if_neg (h.maxGenerated.not_spent hgen),
    if_neg (h.maxFrontier.not_spent hfull)]
  exact Or.inr rfl

theorem emitGuarded_raised (h : o.RaisedTo o') (adapter : Adapter σ)
    (emit emit' : Table → σ → Transition → Bool × Table × σ)
    (hemit : ∀ table world t, SameOrLimited (emit table world t) (emit' table world t))
    (table : Table) (world : σ) (t : Option Transition) :
    SameOrLimited (table.emitGuarded adapter o emit world t)
      (table.emitGuarded adapter o' emit' world t) := by
  unfold Table.emitGuarded
  by_cases hs : table.stop.isSome = true
  · rw [if_pos hs, if_pos hs]
    exact Or.inr rfl
  · rw [if_neg hs, if_neg hs]
    cases t with
    | none => exact Or.inr rfl
    | some t =>
      dsimp only
      by_cases hpoll : (pollCancelled adapter world).1 = true
      · rw [if_pos hpoll, if_pos hpoll]
        exact Or.inr rfl
      by_cases hmax : spent o.maxTransitions table.metrics.examinedTransitions = true
      · rw [if_neg hpoll, if_pos hmax]
        exact Or.inl rfl
      rw [if_neg hpoll, if_neg hpoll, if_neg hmax, if_neg (h.maxTransitions.not_spent hmax)]
      exact hemit _ _ _

/-- An emission to a table that has been stopped does nothing. -/
def Inert (emit : Table → σ → Option Transition → Bool × Table × σ) : Prop :=
  ∀ table world t, table.stop.isSome = true → emit table world t = (false, table, world)

theorem expand_raised (emit emit' : Table → σ → Option Transition → Bool × Table × σ)
    (hin : Inert emit)
    (hemit : ∀ table world t, SameOrLimited (emit table world t) (emit' table world t))
    (neighbors : σ → StateId → Enumeration σ) (table : Table) (world : σ) (i : ℕ) :
    LimitStopped (table.expand emit neighbors world i).1 ∨
      table.expand emit neighbors world i = table.expand emit' neighbors world i := by
  have hrun := Enumeration.run_simulation emit emit' (fun t t' => t = t') LimitStopped
    (by
      intro table world t hl
      rw [hin table world t (by rw [hl]; rfl)]
      exact hl)
    (by
      rintro table _ world t rfl
      rcases hemit table world t with hl | he
      · exact Or.inl hl
      · rw [he]
        exact Or.inr ⟨rfl, rfl, rfl⟩)
    (neighbors world (nodeAt table.nodes i).state) table table (Or.inr rfl)
  unfold Table.expand
  rcases hrun with hl | ⟨hflag, htab, hworld⟩
  · left
    have hnone : ((neighbors world (nodeAt table.nodes i).state).run emit table).2.1.stop.isNone =
        false := by
      rw [hl]
      rfl
    simp only [hnone, Bool.and_false, Bool.false_eq_true, if_false]
    exact hl
  · right
    simp only [hflag, htab, hworld]

theorem searchEmit_raised (h : o.RaisedTo o') (adapter : Adapter σ) (active : ℕ) (table : Table)
    (world : σ) (t : Option Transition) :
    SameOrLimited (Table.searchEmit adapter o active table world t)
      (Table.searchEmit adapter o' active table world t) :=
  emitGuarded_raised h adapter _ _ (fun table world t =>
    emitSearch_raised h table adapter active world t) table world t

theorem reachableEmit_raised (h : o.RaisedTo o') (adapter : Adapter σ) (active : ℕ)
    (table : Table) (world : σ) (t : Option Transition) :
    SameOrLimited (Table.reachableEmit adapter o active table world t)
      (Table.reachableEmit adapter o' active table world t) :=
  emitGuarded_raised h adapter _ _ (fun table world t =>
    emitReachable_raised h table active world t) table world t

theorem finish_raised (h : o.RaisedTo o') (table : Table) (status : Status)
    (termination : Termination) (node : Option ℕ) :
    table.finish o' status termination node = table.finish o status termination node := by
  simp only [Table.finish, h.returnPartial]

/-- A result that reports a limit, possibly with a partial path. -/
def LimitResult (out : Option (SearchResult × σ)) : Prop :=
  ∀ x ∈ out, x.1.status = .limitReached ∨ x.1.status = .partialPath

theorem limitResult_finish (table : Table) (options : Options) (world : σ) :
    LimitResult ((table.finish options .limitReached .limit none).map (·, world)) := by
  intro x hx
  obtain ⟨r, hr, rfl⟩ := Option.map_eq_some_iff.mp hx
  rcases finish_none_cases _ _ _ _ _ hr with rfl | ⟨best, _, _, _, hp⟩
  · exact Or.inl rfl
  · obtain ⟨steps, _, rfl⟩ := finishPath_eq_some _ _ _ _ hp
    exact Or.inr rfl

theorem searchRound_raised (h : o.RaisedTo o') (adapter : Adapter σ)
    (neighbors : σ → StateId → Enumeration σ) (goal : σ → StateId → Bool × σ) (s : Table × σ) :
    (∃ out, Table.searchRound adapter o neighbors goal s = .inr out ∧ LimitResult out) ∨
      Table.searchRound adapter o neighbors goal s =
        Table.searchRound adapter o' neighbors goal s := by
  obtain ⟨table, world⟩ := s
  unfold Table.searchRound
  dsimp only
  simp only [finish_raised h]
  cases nextOpen table.nodes with
  | none => exact Or.inr rfl
  | some i =>
    dsimp only
    generalize pollCancelled adapter world = poll
    generalize goal poll.2 (nodeAt table.nodes i).state = reached
    by_cases hpoll : poll.1 = true
    · rw [if_pos hpoll, if_pos hpoll]
      exact Or.inr rfl
    by_cases hgoal : reached.1 = true
    · rw [if_neg hpoll, if_neg hpoll, if_pos hgoal, if_pos hgoal]
      exact Or.inr rfl
    by_cases hmax : spent o.maxExpanded table.metrics.expanded = true
    · rw [if_neg hpoll, if_neg hgoal, if_pos hmax]
      exact Or.inl ⟨_, rfl, limitResult_finish table o reached.2⟩
    rw [if_neg hpoll, if_neg hpoll, if_neg hgoal, if_neg hgoal, if_neg hmax,
      if_neg (h.maxExpanded.not_spent hmax)]
    rcases expand_raised (Table.searchEmit adapter o i) (Table.searchEmit adapter o' i)
      (fun table world t hs => searchEmit_stopped adapter o i table world t hs)
      (fun table world t => searchEmit_raised h adapter i table world t) neighbors (table.close i)
      reached.2 i with hl | he
    · left
      rw [hl]
      exact ⟨_, rfl, limitResult_finish _ o _⟩
    · rw [he]
      exact Or.inr rfl

theorem start_raised (h : o.RaisedTo o') (adapter : Adapter σ) (world : σ) (start : StateId) :
    Table.start adapter o' world start = Table.start adapter o world start := by
  simp only [Table.start, h.algorithm, considerPartial_raised h]

theorem pfValidInput_raised (h : o.RaisedTo o') (adapter : Adapter σ) :
    pfValidInput adapter o' = pfValidInput adapter o := by
  simp only [pfValidInput, h.algorithm, h.returnPartial]

theorem search_raised (h : o.RaisedTo o') (fuel : ℕ) (adapter : Option (Adapter σ))
    (start : StateId) (world : σ) :
    LimitResult (Table.search fuel adapter start o world) ∨
      Table.search fuel adapter start o world = Table.search fuel adapter start o' world := by
  unfold Table.search
  dsimp only
  cases adapter with
  | none => exact Or.inr rfl
  | some adapter =>
    dsimp only
    cases adapter.neighbors with
    | none => exact Or.inr rfl
    | some neighbors =>
      cases adapter.goal with
      | none => exact Or.inr rfl
      | some goal =>
        dsimp only
        rw [pfValidInput_raised h, start_raised h]
        split_ifs
        · rcases FuelLoop.run_same (Table.searchRound adapter o neighbors goal)
            (Table.searchRound adapter o' neighbors goal) LimitResult
            (searchRound_raised h adapter neighbors goal) fuel _ with ⟨out, hout, hl⟩ | he
          · left
            rw [hout]
            exact hl
          · right
            rw [he]
        · exact Or.inr rfl

theorem reachableRound_raised (h : o.RaisedTo o') (adapter : Adapter σ)
    (neighbors : σ → StateId → Enumeration σ) (s : ℕ × Table × σ) :
    (∃ out, Table.reachableRound adapter o neighbors s = .inr out ∧
      out.1.status = .limitReached) ∨
      Table.reachableRound adapter o neighbors s = Table.reachableRound adapter o' neighbors s := by
  obtain ⟨cursor, table, world⟩ := s
  unfold Table.reachableRound
  dsimp only
  generalize pollCancelled adapter world = poll
  by_cases hcur : cursor < table.nodes.length
  swap
  · rw [if_neg hcur, if_neg hcur]
    exact Or.inr rfl
  by_cases hpoll : poll.1 = true
  · rw [if_pos hcur, if_pos hcur, if_pos hpoll, if_pos hpoll]
    exact Or.inr rfl
  by_cases hmax : spent o.maxExpanded table.metrics.expanded = true
  · rw [if_pos hcur, if_neg hpoll, if_pos hmax]
    exact Or.inl ⟨_, rfl, rfl⟩
  rw [if_pos hcur, if_pos hcur, if_neg hpoll, if_neg hpoll, if_neg hmax,
    if_neg (h.maxExpanded.not_spent hmax)]
  rcases expand_raised (Table.reachableEmit adapter o cursor) (Table.reachableEmit adapter o' cursor)
    (fun table world t hs => reachableEmit_stopped adapter o cursor table world t hs)
    (fun table world t => reachableEmit_raised h adapter cursor table world t) neighbors
    { table with metrics := { table.metrics with expanded := table.metrics.expanded+1 } }
    poll.2 cursor with hl | he
  · left
    rw [if_pos (by rw [hl]; rfl)]
    refine ⟨_, rfl, ?_⟩
    unfold Table.finishReachable
    rw [hl]
    rfl
  · rw [he]
    exact Or.inr rfl

theorem reachable_raised (h : o.RaisedTo o') (fuel : ℕ) (adapter : Option (Adapter σ))
    (start : StateId) (world : σ) :
    (∃ out, Table.reachable fuel adapter start o world = some out ∧
      out.1.status = .limitReached) ∨
      Table.reachable fuel adapter start o world = Table.reachable fuel adapter start o' world := by
  unfold Table.reachable
  dsimp only
  cases adapter with
  | none => exact Or.inr rfl
  | some adapter =>
    dsimp only
    cases adapter.neighbors with
    | none => exact Or.inr rfl
    | some neighbors =>
      exact FuelLoop.run_same (Table.reachableRound adapter o neighbors)
        (Table.reachableRound adapter o' neighbors) (fun out => out.1.status = .limitReached)
        (reachableRound_raised h adapter neighbors) fuel _

/-- A call that no budget has stopped has the same result with raised budgets, if its
allocations succeed. -/
theorem raised_budgets_same_result (o o' : Options) (h : o.RaisedTo o') (c d : Context)
    (hc : LeftBehind c) (hd : LeftBehind d) (fuel : ℕ) (adapter : Option (Adapter σ))
    (start : StateId) (world : σ) :
    (∀ r c' w, atrinikPfSearch fuel (some c) adapter start (some o) world = some (r, c', w) →
      r.status = .found ∨ r.status = .noPath →
      ∃ s d' w', atrinikPfSearch fuel (some d) adapter start (some o') world = some (s, d', w') ∧
        (s.status ≠ .outOfMemory → s = r ∧ w' = w)) ∧
    (∀ r c' w, atrinikPfReachable fuel (some c) adapter start (some o) world = some (r, c', w) →
      r.status = .complete →
      ∃ s d' w', atrinikPfReachable fuel (some d) adapter start (some o') world = some (s, d', w') ∧
        (s.status ≠ .outOfMemory → s = r ∧ w' = w)) := by
  constructor
  · intro r c' w hrun hstatus
    have htable := search_of_context c hc fuel adapter start (some o) world w r c' hrun
      (by rcases hstatus with h | h <;> rw [h] <;> decide)
    have hraised : Table.search fuel adapter start o' world = some (r, w) := by
      rcases search_raised h fuel adapter start world with hl | he
      · rcases hl (r, w) htable with hl | hl <;> rcases hstatus with hs | hs <;>
          exact absurd (hl.symm.trans hs) (by decide)
      · rw [← he]
        exact htable
    obtain ⟨out, hout, hend⟩ := atrinikPfSearch_ends fuel d hd.shape adapter start (some o') world
    rw [show Table.search fuel adapter start ((some o').getD atrinikPfOptionsInit) world = _ from
      hraised] at hend
    obtain ⟨⟨s, d', w'⟩, hs⟩ := hend.exists_result
    rw [← hout] at hs
    refine ⟨s, d', w', hs, fun hmem => ?_⟩
    have htable' := search_of_context d hd fuel adapter start (some o') world w' s d' hs hmem
    have heq := Option.some.inj (htable'.symm.trans hraised)
    exact ⟨congrArg Prod.fst heq, congrArg Prod.snd heq⟩
  · intro r c' w hrun hstatus
    have htable := reachable_of_context c hc fuel adapter start (some o) world w r c' hrun
      (by rw [hstatus]; decide)
    have hraised : Table.reachable fuel adapter start o' world = some (r, w) := by
      rcases reachable_raised h fuel adapter start world with ⟨out, hout, hl⟩ | he
      · rw [show Table.reachable fuel adapter start o world = some (r, w) from htable] at hout
        rw [← Option.some.inj hout] at hl
        exact absurd (hl.symm.trans hstatus) (by decide)
      · rw [← he]
        exact htable
    obtain ⟨out, hout, hend⟩ := atrinikPfReachable_ends fuel d hd.shape adapter start (some o') world
    rw [show Table.reachable fuel adapter start ((some o').getD atrinikPfOptionsInit) world = _ from
      hraised] at hend
    obtain ⟨⟨s, d', w'⟩, hs⟩ := hend.exists_result
    rw [← hout] at hs
    refine ⟨s, d', w', hs, fun hmem => ?_⟩
    have htable' := reachable_of_context d hd fuel adapter start (some o') world w' s d' hs hmem
    have heq := Option.some.inj (htable'.symm.trans hraised)
    exact ⟨congrArg Prod.fst heq, congrArg Prod.snd heq⟩

theorem raised_budgets_same_result_detour :
    ∃ s d' w', atrinikPfSearch 9 (some (atrinikPfContextCreate fun _ => true))
        (some (detour (· = 4) steepHeuristic).toAdapter) 0 (some { algorithm := .astar }) 0 =
        some (s, d', w') ∧
      (s.status ≠ .outOfMemory → s.metrics.totalCost = 3) := by
  obtain ⟨s, d', w', hs, hsame⟩ := (raised_budgets_same_result
    { algorithm := .astar, maxExpanded := 5, maxFrontier := 2 } { algorithm := .astar }
    ⟨rfl, rfl, Or.inl rfl, Or.inl rfl, Or.inl rfl, Or.inl rfl⟩
    (atrinikPfContextCreate fun _ => true) (atrinikPfContextCreate fun _ => true) (.created _)
    (.created _) 9 (some (detour (· = 4) steepHeuristic).toAdapter) 0 0).1 _ _ _ rfl (Or.inl rfl)
  exact ⟨s, d', w', hs, fun hm => by rw [(hsame hm).1]; rfl⟩

end LibAtrinik.Pathfinding

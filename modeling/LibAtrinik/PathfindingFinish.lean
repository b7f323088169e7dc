import LibAtrinik.PathfindingEmitSearch

namespace LibAtrinik.Pathfinding

variable {σ : Type}

/-- The first loop counts the steps of the chain. -/
theorem pfPathCount_eq (c : Context) (hi : Indexed c) (hp : ParentsBelow c c.nodeCount)
    (fuel : ℕ) (current : Option ℕ) (hc : ∀ i, current = some i → i < c.nodeCount) (count : ℕ) :
    pfPathCount c fuel current count =
      (pathTo c.nodeList fuel current).map (fun steps => count+steps.length) := by
  induction fuel generalizing current count with
  | zero => cases current <;> rfl
  | succ fuel ih =>
    cases current with
    | none => rfl
    | some i =>
      have hlt := hc i rfl
      have hat := hi.nodeAt_eq i hlt
      have hpar : (nodeAt c.nodeList i).parent = (c.node i).parent := by
        rw [hat]
        rfl
      rw [pfPathCount, pathTo, hpar, ih _ (fun p hpar => hp i hlt p hpar)]
      cases pathTo c.nodeList fuel (c.node i).parent with
      | none => rfl
      | some steps =>
        simp only [Option.map_some, List.length_append, List.length_cons, List.length_nil]
        congr 1
        omega

/-- The second loop writes below its counter only. -/
theorem pfPathWrite_above (c : Context) (n : ℕ) (current : Option ℕ) (path : List Step) (j : ℕ)
    (hj : n ≤ j) : (pfPathWrite c n current path)[j]? = path[j]? := by
  induction n generalizing current path with
  | zero => rfl
  | succ n ih =>
    rw [pfPathWrite, ih _ _ (by omega), List.getElem?_set_ne (by omega)]

theorem pfPathWrite_length (c : Context) (n : ℕ) (current : Option ℕ) (path : List Step) :
    (pfPathWrite c n current path).length = path.length := by
  induction n generalizing current path with
  | zero => rfl
  | succ n ih => rw [pfPathWrite, ih, List.length_set]

/-- The second loop writes the steps of the chain. -/
theorem pfPathWrite_take (c : Context) (hi : Indexed c) (hp : ParentsBelow c c.nodeCount)
    (fuel : ℕ) (current : Option ℕ) (hc : ∀ i, current = some i → i < c.nodeCount)
    (steps : List Step) (hs : pathTo c.nodeList fuel current = some steps) (path : List Step)
    (hl : steps.length ≤ path.length) :
    (pfPathWrite c steps.length current path).take steps.length = steps := by
  induction fuel generalizing current steps path with
  | zero =>
    cases current with
    | none =>
      obtain rfl : [] = steps := Option.some.inj hs
      rfl
    | some i => cases hs
  | succ fuel ih =>
    cases current with
    | none =>
      obtain rfl : [] = steps := Option.some.inj hs
      rfl
    | some i =>
      have hlt := hc i rfl
      rw [pathTo, hi.nodeAt_eq i hlt] at hs
      obtain ⟨init, hinit, rfl⟩ := Option.map_eq_some_iff.mp hs
      rw [List.length_append, List.length_singleton] at hl ⊢
      rw [pfPathWrite, Option.getD_some, List.take_add_one,
        ih _ (fun p hpar => hp i hlt p hpar) init hinit _ (by rw [List.length_set]; omega),
        pfPathWrite_above _ _ _ _ _ le_rfl, List.getElem?_set_self (by omega)]
      rfl

theorem take_set_zero (path : List Step) (n : ℕ) :
    (path.set 0 { path.getD 0 default with data := 0 }).take n = clearFirst (path.take n) := by
  cases path with
  | nil => simp [clearFirst]
  | cons step rest =>
    cases n with
    | zero => rfl
    | succ n => simp [clearFirst]

/-- Room for the path, unless memory is refused. -/
theorem pfReservePath_spec (c : Context) (hs : Shape c) (count : ℕ) :
    (∃ memory, pfReservePath c count = (false, { c with memory := memory })) ∨
    ∃ memory path pathCapacity, pfReservePath c count =
        (true, { c with memory := memory, path := path, pathCapacity := pathCapacity }) ∧
      path.length = pathCapacity ∧ count ≤ pathCapacity := by
  have hl := hs.path
  unfold pfReservePath
  split_ifs with hfull
  · dsimp only
    generalize hg : pfGrowArray c.memory sizeofStep c.pathCapacity count = r
    cases hr : r.1 with
    | none => exact Or.inl ⟨r.2, rfl⟩
    | some capacity =>
      have hge := (pfGrowArray_spec _ _ _ _ capacity (by rw [hg, hr])).1
      exact Or.inr ⟨r.2, reallocList c.path capacity, capacity, rfl,
        reallocList_length _ _ (by omega), hge⟩
  · exact Or.inr ⟨c.memory, c.path, c.pathCapacity, rfl, hl, by omega⟩

/-- The storage invariant does not mention the path array. -/
theorem Indexed.withPath {c : Context} (hi : Indexed c) (memory : ℕ → Bool) (path : List Step)
    (pathCapacity : ℕ) (hl : path.length = pathCapacity) :
    Indexed { c with memory := memory, path := path, pathCapacity := pathCapacity } := by
  have hs := hi.shape
  exact ⟨⟨hs.1, hs.2, hs.3, hs.4, hl, hs.6, hs.7⟩, hi.2, hi.3, hi.4, hi.5, hi.6⟩

/-- How the end of an operation on the context relates to the end on the table: both come
back or neither does, and the results are the same unless memory was refused. The nodes that
have been generated without a refusal fit into the address space. -/
inductive Ends {ρ : Type} (status : ρ → Status) (metrics : ρ → Metrics) :
    Option (ρ × Context × σ) → Option (ρ × σ) → Prop where
  | never : Ends status metrics none none
  | same (result : ρ) (c : Context) (world : σ) (h : Shape c)
      (hg : (metrics result).generated*sizeofPfNode ≤ sizeMax) :
      Ends status metrics (some (result, c, world)) (some (result, world))
  | refused (result : ρ) (c : Context) (world : σ) (other : Option (ρ × σ)) (h : Shape c)
      (hs : status result = .outOfMemory) :
      Ends status metrics (some (result, c, world)) other

/-- The path is the chain of the node, if it ends and memory for it is not refused. Nothing else
of the context changes. -/
theorem pfFinishPath_cases (c : Context) (hi : Indexed c) (hp : ParentsBelow c c.nodeCount)
    (result : SearchResult) (i : ℕ) (hlt : i < c.nodeCount) :
    (pathTo c.nodeList c.nodeCount (some i) = none ∧ pfFinishPath c result i = none) ∨
    (∃ memory, pfFinishPath c result i = some ({
        status := .outOfMemory, termination := .outOfMemory, metrics := c.metrics },
      { c with memory := memory })) ∨
    ∃ steps memory path pathCapacity, pathTo c.nodeList c.nodeCount (some i) = some steps ∧
      path.length = pathCapacity ∧ pfFinishPath c result i = some ({ result with
          steps := clearFirst steps
          metrics := { result.metrics with totalCost := (c.node i).cost } },
        { c with memory := memory, path := path, pathCapacity := pathCapacity }) := by
  have hc : ∀ j, some i = some j → j < c.nodeCount := fun j hj => Option.some.inj hj ▸ hlt
  unfold pfFinishPath pfBuildPath
  rw [pfPathCount_eq c hi hp c.nodeCount (some i) hc 0]
  cases hs : pathTo c.nodeList c.nodeCount (some i) with
  | none => exact Or.inl ⟨rfl, rfl⟩
  | some steps =>
    right
    simp only [Option.map_some, Nat.zero_add]
    rcases pfReservePath_spec c hi.shape steps.length with ⟨m, he⟩ | ⟨m, path, cap, he, hl, hge⟩
    · rw [he]
      exact Or.inl ⟨m, rfl⟩
    · rw [he]
      have hi' := hi.withPath m path cap hl
      have htake := pfPathWrite_take _ hi' hp c.nodeCount (some i) hc steps hs path (by omega)
      simp only [if_true, Option.map_some]
      rw [take_set_zero, htake]
      refine Or.inr ⟨steps, m, _, cap, rfl, ?_, rfl⟩
      rw [List.length_set, pfPathWrite_length]
      exact hl

theorem pfFinishPath_ends (c : Context) (hi : Indexed c) (hp : ParentsBelow c c.nodeCount)
    (result : SearchResult) (hg : result.metrics.generated*sizeofPfNode ≤ sizeMax) (i : ℕ)
    (hlt : i < c.nodeCount) (world : σ) :
    Ends SearchResult.status SearchResult.metrics
      ((pfFinishPath c result i).map fun r => (r.1, r.2, world))
      ((c.table.finishPath result i).map (·, world)) := by
  have htab : c.table.nodes = c.nodeList := rfl
  have hcost : (nodeAt c.nodeList i).cost = (c.node i).cost := by
    rw [hi.nodeAt_eq i hlt]
    rfl
  unfold Table.finishPath
  rw [htab, hi.length_eq, hcost]
  rcases pfFinishPath_cases c hi hp result i hlt with ⟨hnone, he⟩ | ⟨m, he⟩ |
    ⟨steps, m, path, cap, hsteps, hl, he⟩
  · rw [he, hnone]
    exact Ends.never
  · rw [he]
    exact Ends.refused _ _ _ _ (hi.shape.control rfl) rfl
  · rw [he, hsteps]
    exact Ends.same _ _ _ (hi.withPath m path cap hl).shape hg

theorem pfFinishSearch_ends (c : Context) (hi : Indexed c) (hp : ParentsBelow c c.nodeCount)
    (hb : ∀ i, c.partialNode = some i → i < c.nodeCount)
    (hg : c.metrics.generated*sizeofPfNode ≤ sizeMax) (status : Status)
    (termination : Termination) (node : Option ℕ) (hn : ∀ i, node = some i → i < c.nodeCount)
    (world : σ) :
    Ends SearchResult.status SearchResult.metrics (finishSearch c world status termination node)
      ((c.table.finish c.options status termination node).map (·, world)) := by
  let result : SearchResult :=
    { status := status, termination := termination, metrics := c.metrics }
  have hpath (r : SearchResult) (hr : r.metrics = c.metrics) (i : ℕ) (hlt : i < c.nodeCount) :=
    pfFinishPath_ends c hi hp r (hr ▸ hg) i hlt world
  have hsame (r : SearchResult) (hr : r.metrics = c.metrics) :
      Ends SearchResult.status SearchResult.metrics (some (r, c, world)) (some (r, world)) :=
    Ends.same r c world hi.shape (hr ▸ hg)
  unfold finishSearch pfFinishSearch Table.finish
  cases node with
  | some i => exact hpath result rfl i (hn i rfl)
  | none =>
    have hbest : c.table.partialNode = c.partialNode := rfl
    have hmetrics : c.table.metrics = c.metrics := rfl
    rw [hbest, hmetrics]
    cases hpn : c.partialNode with
    | none => exact hsame result rfl
    | some best =>
      dsimp only
      split_ifs with h
      · exact hpath { result with status := .partialPath } rfl best (hb best hpn)
      · exact hsame result rfl

/-- A context from which paths can be built. -/
structure Finishable (options : Options) (c : Context) : Prop where
  options_eq : c.options = options
  indexed : Indexed c
  parent_lt : ParentsBelow c c.nodeCount
  best_lt : ∀ i, c.partialNode = some i → i < c.nodeCount
  generated : c.metrics.generated = c.nodeCount

/-- Only the path array and the allocator differ. -/
def PathWritten (c c' : Context) : Prop :=
  ∃ memory path pathCapacity, path.length = pathCapacity ∧
    c' = { c with memory := memory, path := path, pathCapacity := pathCapacity }

/-- Finishing a search changes the path array only. The counters of the result are those of the
context, and a partial path is the chain of the node that was kept for it. -/
theorem finishSearch_leaves {options : Options} {c : Context} (h : Finishable options c)
    (status : Status) (termination : Termination) (node : Option ℕ)
    (hn : ∀ i, node = some i → i < c.nodeCount)
    (world : σ) (r : SearchResult) (c' : Context) (world' : σ)
    (hr : finishSearch c world status termination node = some (r, c', world')) :
    PathWritten c c' ∧
    (∃ totalCost, r.metrics = { c.metrics with totalCost := totalCost }) ∧
    (r.status = .partialPath → status = .partialPath ∨ options.returnPartial = true ∧
      ∃ best steps, c.partialNode = some best ∧
      pathTo c.nodeList c.nodeCount (some best) = some steps ∧ r.steps = clearFirst steps ∧
      r.metrics.totalCost = (c.node best).cost) := by
  have hl : c.path.length = c.pathCapacity := h.indexed.shape.path
  -- the end of a search that builds a path
  have hpath (result : SearchResult) (hm : result.metrics = c.metrics) (i : ℕ)
      (hlt : i < c.nodeCount) (hres : pfFinishPath c result i = some (r, c')) :
      PathWritten c c' ∧
      (∃ totalCost, r.metrics = { c.metrics with totalCost := totalCost }) ∧
      (r.status = .partialPath → result.status = .partialPath ∧ ∃ steps,
        pathTo c.nodeList c.nodeCount (some i) = some steps ∧ r.steps = clearFirst steps ∧
        r.metrics.totalCost = (c.node i).cost) := by
    rcases pfFinishPath_cases c h.indexed h.parent_lt result i hlt with ⟨_, he⟩ | ⟨m, he⟩ |
      ⟨steps, m, path, cap, hsteps, hlen, he⟩
    · rw [he] at hres
      cases hres
    · obtain ⟨rfl, rfl⟩ := Prod.mk.inj (Option.some.inj (he.symm.trans hres))
      exact ⟨⟨m, c.path, c.pathCapacity, hl, rfl⟩, ⟨c.metrics.totalCost, rfl⟩, fun hs => by cases hs⟩
    · obtain ⟨rfl, rfl⟩ := Prod.mk.inj (Option.some.inj (he.symm.trans hres))
      exact ⟨⟨m, path, cap, hlen, rfl⟩, ⟨(c.node i).cost, by rw [hm]⟩,
        fun hs => ⟨hs, steps, hsteps, rfl, rfl⟩⟩
  have hplain (hres : (some ({ status := status, termination := termination
                               metrics := c.metrics }, c) : Option (SearchResult × Context)) =
      some (r, c')) :
      PathWritten c c' ∧
      (∃ totalCost, r.metrics = { c.metrics with totalCost := totalCost }) ∧
      r.status = status := by
    obtain ⟨rfl, rfl⟩ := Prod.mk.inj (Option.some.inj hres)
    exact ⟨⟨c.memory, c.path, c.pathCapacity, hl, rfl⟩, ⟨c.metrics.totalCost, rfl⟩, rfl⟩
  obtain ⟨⟨r', c''⟩, hres, heq⟩ := Option.map_eq_some_iff.mp hr
  obtain ⟨rfl, rfl, rfl⟩ : r' = r ∧ c'' = c' ∧ world = world' := by simpa using heq
  unfold pfFinishSearch at hres
  dsimp only at hres
  cases node with
  | some i =>
    obtain ⟨hc, hm, hs⟩ := hpath _ rfl i (hn i rfl) hres
    exact ⟨hc, hm, fun hp => Or.inl (hs hp).1⟩
  | none =>
    cases hb : c.partialNode with
    | none =>
      rw [hb] at hres
      obtain ⟨hc, hm, hs⟩ := hplain hres
      exact ⟨hc, hm, fun hp => Or.inl (hs.symm.trans hp)⟩
    | some best =>
      rw [hb] at hres
      dsimp only at hres
      split_ifs at hres with hreturn
      · obtain ⟨hc, hm, hs⟩ := hpath _ rfl best (h.best_lt best hb) hres
        refine ⟨hc, hm, fun hp => Or.inr ?_⟩
        obtain ⟨_, steps, hsteps, hrs, hcost⟩ := hs hp
        exact ⟨h.options_eq ▸ hreturn.1, best, steps, rfl, hsteps, hrs, hcost⟩
      · obtain ⟨hc, hm, hs⟩ := hplain hres
        exact ⟨hc, hm, fun hp => Or.inl (hs.symm.trans hp)⟩

end LibAtrinik.Pathfinding

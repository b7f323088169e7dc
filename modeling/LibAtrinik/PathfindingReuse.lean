import LibAtrinik.PathfindingOperations
import LibAtrinik.PathfindingPure

namespace LibAtrinik.Pathfinding

variable {σ ρ : Type}

/-- The contexts that sequences of operations leave behind. Adapters, options, outcomes and
the answers of the allocator are arbitrary, and the allocator may change at any time. -/
inductive LeftBehind : Context → Prop where
  | created (memory : ℕ → Bool) : LeftBehind (atrinikPfContextCreate memory)
  | searched {σ : Type} (c : Context) (h : LeftBehind c) (fuel : ℕ) (adapter : Option (Adapter σ))
      (start : StateId) (options : Option Options) (world : σ) (result : SearchResult)
      (c' : Context) (world' : σ)
      (hrun : atrinikPfSearch fuel (some c) adapter start options world =
        some (result, some c', world')) : LeftBehind c'
  | traversed {σ : Type} (c : Context) (h : LeftBehind c) (fuel : ℕ) (adapter : Option (Adapter σ))
      (start : StateId) (options : Option Options) (world : σ) (result : ReachabilityResult)
      (c' : Context) (world' : σ)
      (hrun : atrinikPfReachable fuel (some c) adapter start options world =
        some (result, some c', world')) : LeftBehind c'
  | reallocated (c : Context) (h : LeftBehind c) (memory : ℕ → Bool) :
      LeftBehind { c with memory := memory }

/-- No allocation of the operation has failed: a failure is what this status reports. -/
def Allocated (status : ρ → Status) (out : Option (ρ × Option Context × σ)) : Prop :=
  ∀ r ∈ out, status r.1 ≠ .outOfMemory

instance (status : ρ → Status) (out : Option (ρ × Option Context × σ)) :
    Decidable (Allocated status out) := inferInstanceAs (Decidable (∀ r ∈ out, _))

/-- What the caller sees of a finished operation, apart from the context. -/
def outcome (out : Option (ρ × Option Context × σ)) : Option (ρ × σ) :=
  out.map fun r => (r.1, r.2.2)

theorem Ends.shape {status : ρ → Status} {metrics : ρ → Metrics} {out : Finished σ ρ}
    {other : Option (ρ × σ)}
    (h : Ends status metrics out other) (r : ρ) (c : Context) (world : σ)
    (ho : out = some (r, c, world)) : Shape c := by
  cases h with
  | never => cases ho
  | same _ _ _ hs _ =>
    cases ho
    exact hs
  | refused _ _ _ _ hs _ =>
    cases ho
    exact hs

theorem Ends.outcome_eq {status : ρ → Status} {metrics : ρ → Metrics} {out : Finished σ ρ}
    {other : Option (ρ × σ)} (h : Ends status metrics out other)
    (ha : Allocated status (out.map fun r => (r.1, some r.2.1, r.2.2))) :
    outcome (out.map fun r => (r.1, some r.2.1, r.2.2)) = other := by
  cases h with
  | never => rfl
  | same _ _ _ _ _ => rfl
  | refused result c world _ _ hr => exact absurd hr (ha (result, some c, world) rfl)

theorem shape_of_finished {status : ρ → Status} {metrics : ρ → Metrics} {out : Finished σ ρ}
    {other : Option (ρ × σ)}
    (h : Ends status metrics out other) (r : ρ) (c : Context) (world : σ)
    (ho : (out.map fun r => (r.1, some r.2.1, r.2.2)) = some (r, some c, world)) : Shape c := by
  obtain ⟨⟨r', c', w'⟩, hout, heq⟩ := Option.map_eq_some_iff.mp ho
  obtain ⟨rfl, hc, rfl⟩ : r' = r ∧ some c' = some c ∧ w' = world := by simpa using heq
  rw [Option.some.inj hc] at hout
  exact h.shape r' c w' hout

/-- Whatever happened to a context, its arrays are as long as its capacities say. -/
theorem LeftBehind.shape {c : Context} (h : LeftBehind c) : Shape c := by
  induction h with
  | created memory => exact ⟨rfl, rfl, Or.inl rfl, rfl, rfl, rfl, Nat.zero_le _⟩
  | searched c _ fuel adapter start options world result c' world' hrun ih =>
    obtain ⟨out, hout, hend⟩ := atrinikPfSearch_ends fuel c ih adapter start options world
    rw [hout] at hrun
    exact shape_of_finished hend result c' world' hrun
  | traversed c _ fuel adapter start options world result c' world' hrun ih =>
    obtain ⟨out, hout, hend⟩ := atrinikPfReachable_ends fuel c ih adapter start options world
    rw [hout] at hrun
    exact shape_of_finished hend result c' world' hrun
  | reallocated c _ memory ih => exact ih.control rfl

theorem outcome_search (fuel : ℕ) (c : Context) (hs : Shape c) (adapter : Option (Adapter σ))
    (start : StateId) (options : Option Options) (world : σ)
    (ha : Allocated SearchResult.status
      (atrinikPfSearch fuel (some c) adapter start options world)) :
    outcome (atrinikPfSearch fuel (some c) adapter start options world) =
      Table.search fuel adapter start (options.getD atrinikPfOptionsInit) world := by
  obtain ⟨out, hout, hend⟩ := atrinikPfSearch_ends fuel c hs adapter start options world
  rw [hout] at ha ⊢
  exact hend.outcome_eq ha

theorem outcome_reachable (fuel : ℕ) (c : Context) (hs : Shape c) (adapter : Option (Adapter σ))
    (start : StateId) (options : Option Options) (world : σ)
    (ha : Allocated ReachabilityResult.status
      (atrinikPfReachable fuel (some c) adapter start options world)) :
    outcome (atrinikPfReachable fuel (some c) adapter start options world) =
      Table.reachable fuel adapter start (options.getD atrinikPfOptionsInit) world := by
  obtain ⟨out, hout, hend⟩ := atrinikPfReachable_ends fuel c hs adapter start options world
  rw [hout] at ha ⊢
  exact hend.outcome_eq ha

/-- An operation on a context that other operations have left behind has the same outcome as
on a fresh context, for every bound on the rounds, if the allocations succeed. -/
theorem reused_context_eq_fresh (c : Context) (hc : LeftBehind c) (memory : ℕ → Bool)
    (fuel : ℕ) (adapter : Option (Adapter σ)) (start : StateId) (options : Option Options)
    (world : σ) :
    (Allocated SearchResult.status
        (atrinikPfSearch fuel (some c) adapter start options world) →
      Allocated SearchResult.status
        (atrinikPfSearch fuel (some (atrinikPfContextCreate memory)) adapter start options world) →
      outcome (atrinikPfSearch fuel (some c) adapter start options world) =
        outcome (atrinikPfSearch fuel (some (atrinikPfContextCreate memory)) adapter start options
          world)) ∧
    (Allocated ReachabilityResult.status
        (atrinikPfReachable fuel (some c) adapter start options world) →
      Allocated ReachabilityResult.status
        (atrinikPfReachable fuel (some (atrinikPfContextCreate memory)) adapter start options
          world) →
      outcome (atrinikPfReachable fuel (some c) adapter start options world) =
        outcome (atrinikPfReachable fuel (some (atrinikPfContextCreate memory)) adapter start
          options world)) := by
  have hfresh := (LeftBehind.created memory).shape
  constructor
  · intro ha ha'
    rw [outcome_search fuel c hc.shape adapter start options world ha,
      outcome_search fuel _ hfresh adapter start options world ha']
  · intro ha ha'
    rw [outcome_reachable fuel c hc.shape adapter start options world ha,
      outcome_reachable fuel _ hfresh adapter start options world ha']

/-- What a search leaves whose fourth request for memory is refused. -/
def interrupted : Context :=
  ((atrinikPfSearch 9 (some (atrinikPfContextCreate fun n => n ≠ 3))
    (some (detour (· = 4) fun _ => 0).toAdapter) 0 none 0).bind (·.2.1)).getD
      (atrinikPfContextCreate fun _ => true)

theorem reused_context_eq_fresh_interrupted :
    outcome (atrinikPfSearch 9 (some { interrupted with memory := fun _ => true })
        (some (detour (· = 4) fun _ => 0).toAdapter) 0 none 0) =
      outcome (atrinikPfSearch 9 (some (atrinikPfContextCreate fun _ => true))
        (some (detour (· = 4) fun _ => 0).toAdapter) 0 none 0) :=
  (reused_context_eq_fresh { interrupted with memory := fun _ => true }
    (.reallocated interrupted (.searched _ (.created fun n => n ≠ 3) 9
      (some (detour (· = 4) fun _ => 0).toAdapter) 0 none 0 _ interrupted _ rfl) _)
    (fun _ => true) 9 (some (detour (· = 4) fun _ => 0).toAdapter) 0 none 0).1
    (by decide +kernel) (by decide +kernel)

end LibAtrinik.Pathfinding

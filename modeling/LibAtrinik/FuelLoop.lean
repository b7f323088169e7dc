import Mathlib.Order.Basic

/-! Loops whose body either continues with a new state or leaves with a result, run for a
bounded number of rounds. The bound is a parameter: a loop that leaves does so for every
larger bound, and a loop with a decreasing measure leaves for some bound. -/
namespace FuelLoop

variable {α β γ δ : Type*}

/-- At most `fuel` rounds of `step`; `none` when the loop has not been left by then. -/
def run (step : α → α ⊕ β) : ℕ → α → Option β
  | 0, _ => none
  | fuel+1, a =>
    match step a with
    | .inl next => run step fuel next
    | .inr result => some result

theorem run_continue (step : α → α ⊕ β) (fuel : ℕ) (a next : α) (h : step a = .inl next) :
    run step (fuel+1) a = run step fuel next := by
  simp only [run, h]

theorem run_leave (step : α → α ⊕ β) (fuel : ℕ) (a : α) (b : β) (h : step a = .inr b) :
    run step (fuel+1) a = some b := by
  simp only [run, h]

/-- The invariant rule: what every continuing round preserves holds when the loop is left. -/
theorem run_invariant (step : α → α ⊕ β) (I : α → Prop)
    (hstep : ∀ a next, I a → step a = .inl next → I next)
    (n : ℕ) (a : α) (b : β) (ha : I a) (h : run step n a = some b) :
    ∃ last, I last ∧ step last = .inr b := by
  induction n generalizing a with
  | zero => simp [run] at h
  | succ n ih =>
    cases hs : step a with
    | inl next =>
      rw [run_continue step _ a next hs] at h
      exact ih next (hstep a next ha hs) h
    | inr result =>
      rw [run_leave step _ a result hs] at h
      exact ⟨a, ha, by rw [hs, Option.some.inj h]⟩

/-- A loop that is left has one result, however large the bound is. -/
theorem run_unique (step : α → α ⊕ β) (n n' : ℕ) (a : α) (b b' : β) (h : run step n a = some b)
    (h' : run step n' a = some b') : b = b' := by
  induction n generalizing a n' with
  | zero => simp [run] at h
  | succ n ih =>
    cases n' with
    | zero => simp [run] at h'
    | succ n' =>
      cases hs : step a with
      | inl next =>
        rw [run_continue step _ a next hs] at h h'
        exact ih n' next h h'
      | inr result =>
        rw [run_leave step _ a result hs] at h h'
        exact Option.some.inj (h.symm.trans h')

/-- The termination rule: a measure that every continuing round lowers bounds the rounds. -/
theorem run_terminates (step : α → α ⊕ β) (I : α → Prop) (measure : α → ℕ)
    (hstep : ∀ a next, I a → step a = .inl next → I next ∧ measure next < measure a)
    (n : ℕ) (a : α) (ha : I a) (hn : measure a < n) : ∃ b, run step n a = some b := by
  induction n generalizing a with
  | zero => omega
  | succ n ih =>
    cases hs : step a with
    | inl next =>
      obtain ⟨hI, hm⟩ := hstep a next ha hs
      rw [run_continue step _ a next hs]
      exact ih next hI (by omega)
    | inr result => exact ⟨result, run_leave step _ a result hs⟩

/-- Two loops whose rounds correspond are left after the same number of rounds, with
corresponding results, unless the first one is left early with a result in `B`. -/
theorem run_simulation (step : α → α ⊕ β) (step' : γ → γ ⊕ δ) (R : α → γ → Prop)
    (S : β → δ → Prop) (B : β → Prop)
    (hstep : ∀ a c, R a c → (∃ b, step a = .inr b ∧ B b) ∨ Sum.LiftRel R S (step a) (step' c))
    (n : ℕ) (a : α) (c : γ) (h : R a c) :
    (∃ b, run step n a = some b ∧ B b) ∨ Option.Rel S (run step n a) (run step' n c) := by
  induction n generalizing a c with
  | zero => exact Or.inr Option.Rel.none
  | succ n ih =>
    rcases hstep a c h with ⟨b, hb, hB⟩ | hs
    · exact Or.inl ⟨b, run_leave step n a b hb, hB⟩
    · simp only [run]
      revert hs
      generalize step a = x
      generalize step' c = y
      intro hs
      cases hs with
      | inl hR => exact ih _ _ hR
      | inr hS => exact Or.inr (Option.Rel.some hS)

/-- Two loops whose rounds are the same do the same, unless the first one is left early with a
result in `B`. -/
theorem run_same (step step' : α → α ⊕ β) (B : β → Prop)
    (hstep : ∀ a, (∃ b, step a = .inr b ∧ B b) ∨ step a = step' a) (n : ℕ) (a : α) :
    (∃ b, run step n a = some b ∧ B b) ∨ run step n a = run step' n a := by
  induction n generalizing a with
  | zero => exact Or.inr rfl
  | succ n ih =>
    rcases hstep a with ⟨b, hb, hB⟩ | hs
    · exact Or.inl ⟨b, run_leave step n a b hb, hB⟩
    · simp only [run, hs]
      cases step' a with
      | inl next => exact ih next
      | inr b => exact Or.inr rfl

/-- A loop whose results are passed through a function. -/
theorem run_map (step : α → α ⊕ β) (step' : α → α ⊕ γ) (f : β → γ)
    (hstep : ∀ a, step' a = (step a).map id f) (n : ℕ) (a : α) :
    run step' n a = (run step n a).map f := by
  induction n generalizing a with
  | zero => rfl
  | succ n ih =>
    simp only [run, hstep]
    cases step a with
    | inl next => exact ih next
    | inr b => rfl

end FuelLoop

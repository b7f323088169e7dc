import Mathlib

namespace LabelledWalk

variable {V E : Type*} {out : V → List E} {target : E → V} {u v m : V} {e : E} {es fs : List E}

/-- The edges `es` lead from `u` to `v`. -/
def IsWalk (out : V → List E) (target : E → V) : V → List E → V → Prop
  | u, [], v => u = v
  | u, e :: es, v => e ∈ out u ∧ IsWalk out target (target e) es v

def Reachable (out : V → List E) (target : E → V) (u v : V) : Prop :=
  ∃ es, IsWalk out target u es v

theorem isWalk_append : IsWalk out target u (es ++ fs) v ↔
    ∃ m, IsWalk out target u es m ∧ IsWalk out target m fs v := by
  induction es generalizing u with
  | nil =>
    constructor
    · exact fun h => ⟨u, rfl, h⟩
    · rintro ⟨m, rfl, h⟩
      exact h
  | cons e es ih =>
    rw [List.cons_append, IsWalk, ih]
    constructor
    · rintro ⟨he, m, h, h'⟩
      exact ⟨m, ⟨he, h⟩, h'⟩
    · rintro ⟨m, ⟨he, h⟩, h'⟩
      exact ⟨he, m, h, h'⟩

theorem IsWalk.snoc (h : IsWalk out target u es v) (he : e ∈ out v) :
    IsWalk out target u (es ++ [e]) (target e) :=
  isWalk_append.mpr ⟨v, h, he, rfl⟩

theorem Reachable.refl (u : V) : Reachable out target u u := ⟨[], rfl⟩

theorem Reachable.step (h : Reachable out target u v) (he : e ∈ out v) :
    Reachable out target u (target e) := by
  obtain ⟨es, hes⟩ := h
  exact ⟨es ++ [e], hes.snoc he⟩

/-- The sum of the weights of a list of edges. -/
def cost (w : E → ℕ) (es : List E) : ℕ := (es.map w).sum

@[simp] theorem cost_nil (w : E → ℕ) : cost w [] = 0 := rfl

@[simp] theorem cost_cons (w : E → ℕ) (e : E) (es : List E) :
    cost w (e :: es) = w e+cost w es := List.sum_cons

@[simp] theorem cost_append (w : E → ℕ) (es fs : List E) :
    cost w (es ++ fs) = cost w es+cost w fs := by
  rw [cost, List.map_append, List.sum_append, cost, cost]

theorem cost_one (es : List E) : cost (fun _ => 1) es = es.length := by
  simp [cost]

/-- The frontier rule. Say that `P v c` holds at the first vertex, and that wherever it
holds, either the vertex is on the frontier or it holds after every edge. Then it holds at
the end of the walk, or the walk crosses the frontier. -/
theorem IsWalk.frontier (w : E → ℕ) (P F : V → ℕ → Prop)
    (hstep : ∀ v c, P v c → F v c ∨ ∀ e ∈ out v, P (target e) (c+w e))
    (h : IsWalk out target u es v) (c : ℕ) (h0 : P u c) :
    P v (c+cost w es) ∨ ∃ front back m, es = front ++ back ∧ IsWalk out target u front m ∧
      IsWalk out target m back v ∧ F m (c+cost w front) := by
  induction es generalizing u c with
  | nil =>
    left
    rw [cost_nil, ← show u = v from h]
    exact h0
  | cons e es ih =>
    obtain ⟨he, h'⟩ := h
    rcases hstep u c h0 with hF | hP
    · exact Or.inr ⟨[], e :: es, u, rfl, rfl, ⟨he, h'⟩, hF⟩
    · rcases ih h' (c+w e) (hP e he) with hend | ⟨front, back, m, rfl, hfront, hback, hF⟩
      · left
        rw [cost_cons, ← Nat.add_assoc]
        exact hend
      · right
        refine ⟨e :: front, back, m, rfl, ⟨he, hfront⟩, hback, ?_⟩
        rw [cost_cons, ← Nat.add_assoc]
        exact hF

end LabelledWalk

import Mathlib.Order.Bounds.Basic
import Mathlib.Order.MinMax
import LibAtrinik.FuelLoop

namespace Trace

variable {α β γ δ : Type*} {R S : α → α → Prop} {a b c : α} {l l' : List α}

/-- From `a` over the points of a list to the last one of them, each related to the next. -/
inductive Passes (R : α → α → Prop) : α → List α → α → Prop where
  | nil (a : α) : Passes R a [] a
  | cons {a b c : α} {l : List α} (h : R a b) (hs : Passes R b l c) : Passes R a (b :: l) c

theorem Passes.single (h : R a b) : Passes R a [b] b := .cons h (.nil b)

theorem Passes.append (h : Passes R a l b) (h' : Passes R b l' c) : Passes R a (l ++ l') c := by
  induction h with
  | nil => exact h'
  | cons h _ ih => exact .cons h (ih h')

/-- The points may be seen through a function. -/
theorem Passes.map {R : γ → γ → Prop} (f : α → γ) (hf : ∀ a b, S a b → R (f a) (f b))
    (h : Passes S a l b) : Passes R (f a) (l.map f) (f b) := by
  induction h with
  | nil => exact .nil _
  | cons h _ ih => exact .cons (hf _ _ h) ih

theorem Passes.mono (hRS : ∀ a b, R a b → S a b) (h : Passes R a l b) : Passes S a l b := by
  induction h with
  | nil => exact .nil _
  | cons h _ ih => exact .cons (hRS _ _ h) ih

/-- What every step hands on arrives at the last point. -/
theorem Passes.carries (I : α → Prop) (hI : ∀ a b, R a b → I a → I b) (h : Passes R a l b)
    (ha : I a) : I b := by
  induction h with
  | nil => exact ha
  | cons h _ ih => exact ih (hI _ _ h ha)

/-- A property that every step hands on holds at both ends of every step. -/
theorem Passes.invariant (I : α → Prop) (hI : ∀ a b, R a b → I a → I b) (h : Passes R a l b)
    (ha : I a) : Passes (fun a b => R a b ∧ I a ∧ I b) a l b := by
  induction h with
  | nil a => exact .nil a
  | cons h _ ih =>
    have hb := hI _ _ h ha
    exact .cons ⟨h, ha, hb⟩ (ih hb)

/-- What every step makes true of the point it leads to holds of all points. -/
theorem Passes.forall_mem (P : α → Prop) (hP : ∀ a b, R a b → P b) (h : Passes R a l b) :
    ∀ p ∈ l, P p := by
  induction h with
  | nil => exact fun p hp => absurd hp List.not_mem_nil
  | cons h _ ih =>
    intro p hp
    rcases List.mem_cons.mp hp with rfl | hp
    · exact hP _ _ h
    · exact ih p hp

/-- Each point is related to the next one. -/
theorem Passes.related (h : Passes R a l b) (front : List α) (p q : α) (back : List α)
    (hl : a :: l = front ++ p :: q :: back) : R p q := by
  induction h generalizing front with
  | nil a => simp [List.cons_eq_append_iff] at hl
  | cons h _ ih =>
    rcases front with _ | ⟨x, front⟩
    · obtain ⟨rfl, htail⟩ := List.cons.inj hl
      obtain ⟨rfl, _⟩ := List.cons.inj htail
      exact h
    · exact ih front (List.cons.inj hl).2

/-- What every step hands on, together with the points before it, holds of every point. -/
theorem Passes.history (I : List α → α → Prop)
    (hI : ∀ seen a b, R a b → I seen a → I (seen ++ [a]) b) (h : Passes R a l b)
    (seen : List α) (ha : I seen a) (front : List α) (p : α) (back : List α)
    (hl : a :: l = front ++ p :: back) : I (seen ++ front) p := by
  induction h generalizing seen front with
  | nil a =>
    rcases front with _ | ⟨x, front⟩
    · obtain ⟨rfl, _⟩ := List.cons.inj hl
      rwa [List.append_nil]
    · simp at hl
  | @cons a b c l h _ ih =>
    rcases front with _ | ⟨x, front⟩
    · obtain ⟨rfl, _⟩ := List.cons.inj hl
      rwa [List.append_nil]
    · obtain ⟨rfl, htail⟩ := List.cons.inj hl
      have hrest := ih (seen ++ [a]) (hI seen a b h ha) front htail
      rwa [List.append_assoc] at hrest

/-- The points of the rounds of a loop, one after the other. -/
def loop (step : β → β ⊕ δ) (points : β → List α) : ℕ → β → List α
  | 0, _ => []
  | fuel+1, s => points s ++
    match step s with
    | .inl next => loop step points fuel next
    | .inr _ => []

/-- The trace of a loop is put together from those of its rounds, and where the loop is left,
its last point is that of the last round. -/
theorem loop_passes (step : β → β ⊕ δ) (points : β → List α) (at' : β → α) (I : β → Prop)
    (E : α → δ → Prop)
    (hstep : ∀ s, I s → ∃ last, Passes R (at' s) (points s) last ∧
      (∀ next, step s = .inl next → I next ∧ last = at' next) ∧
      ∀ result, step s = .inr result → E last result)
    (n : ℕ) (s : β) (hs : I s) :
    ∃ last, Passes R (at' s) (loop step points n s) last ∧
      ∀ result, FuelLoop.run step n s = some result → E last result := by
  induction n generalizing s with
  | zero => exact ⟨at' s, .nil _, fun _ h => by simp [FuelLoop.run] at h⟩
  | succ n ih =>
    obtain ⟨last, hpass, hnext, hend⟩ := hstep s hs
    cases h : step s with
    | inl next =>
      obtain ⟨hI, rfl⟩ := hnext next h
      obtain ⟨last', hpass', hend'⟩ := ih next hI
      refine ⟨last', ?_, ?_⟩
      · simp only [loop, h]
        exact hpass.append hpass'
      · rwa [FuelLoop.run_continue step n s next h]
    | inr result =>
      refine ⟨last, ?_, ?_⟩
      · simp only [loop, h, List.append_nil]
        exact hpass
      · rw [FuelLoop.run_leave step n s result h]
        rintro _ ⟨⟩
        exact hend result h

/-- What holds of the points of every round holds of the points of the loop. -/
theorem loop_forall (step : β → β ⊕ δ) (points : β → List α) (I : β → Prop) (P : α → Prop)
    (hstep : ∀ s, I s → (∀ p ∈ points s, P p) ∧ ∀ next, step s = .inl next → I next)
    (n : ℕ) (s : β) (hs : I s) : ∀ p ∈ loop step points n s, P p := by
  induction n generalizing s with
  | zero => exact fun p hp => absurd hp List.not_mem_nil
  | succ n ih =>
    obtain ⟨hpoints, hnext⟩ := hstep s hs
    intro p hp
    rcases List.mem_append.mp hp with hp | hp
    · exact hpoints p hp
    · cases h : step s with
      | inl next =>
        rw [h] at hp
        exact ih next (hnext next h) p hp
      | inr result =>
        rw [h] at hp
        exact absurd hp List.not_mem_nil

/-- A loop that is left ends its trace with the last point of its last round. -/
theorem loop_getLast (step : β → β ⊕ δ) (points : β → List α) (result : δ) (P : α → Prop)
    (hstep : ∀ s, step s = .inr result → ∃ p, (points s).getLast? = some p ∧ P p)
    (n : ℕ) (s : β) (h : FuelLoop.run step n s = some result) :
    ∃ p, (loop step points n s).getLast? = some p ∧ P p := by
  induction n generalizing s with
  | zero => simp [FuelLoop.run] at h
  | succ n ih =>
    cases hs : step s with
    | inl next =>
      rw [FuelLoop.run_continue step n s next hs] at h
      obtain ⟨p, hp, hat⟩ := ih next h
      refine ⟨p, ?_, hat⟩
      simp only [loop, hs]
      rw [List.getLast?_append, hp]
      rfl
    | inr out =>
      rw [FuelLoop.run_leave step n s out hs] at h
      obtain rfl := Option.some.inj h
      obtain ⟨p, hp, hat⟩ := hstep s hs
      refine ⟨p, ?_, hat⟩
      simp only [loop, hs, List.append_nil]
      exact hp

section Mark

variable [LinearOrder γ] (valid : α → Prop) (value mark : α → γ)

/-- A step that raises the mark to the value of the point it leads to. Steps that lead to an
invalid point may do anything, but none leads back. -/
def Marks (a b : α) : Prop :=
  valid b → valid a ∧ (value a ≤ mark a → mark b = max (mark a) (value b))

variable {valid value mark}

theorem isGreatest_insert {seen : List α} (h : IsGreatest {n | ∃ q ∈ seen, value q = n} (mark a))
    (hb : mark b = max (mark a) (value b)) :
    IsGreatest {n | ∃ q ∈ seen ++ [b], value q = n} (mark b) := by
  constructor
  · rcases max_choice (mark a) (value b) with hm | hm
    · obtain ⟨q, hq, hv⟩ := h.1
      exact ⟨q, List.mem_append_left _ hq, by rw [hv, hb, hm]⟩
    · exact ⟨b, by simp, by rw [hb, hm]⟩
  · rintro n ⟨q, hq, rfl⟩
    rw [hb]
    rcases List.mem_append.mp hq with hq | hq
    · exact le_max_of_le_left (h.2 ⟨q, hq, rfl⟩)
    · rw [List.mem_singleton.mp hq]
      exact le_max_right _ _

/-- The mark is the greatest value so far, as long as the points are valid. -/
theorem Passes.isGreatest (h : Passes (Marks valid value mark) a l c)
    (ha : valid a → mark a = value a) (front : List α) (p : α) (back : List α)
    (hl : a :: l = front ++ p :: back) (hp : valid p) :
    IsGreatest {n | ∃ q ∈ front ++ [p], value q = n} (mark p) := by
  refine h.history (fun seen p => valid p → IsGreatest {n | ∃ q ∈ seen ++ [p], value q = n} (mark p))
    (fun seen a b hab ih hv => ?_) [] (fun hv => ?_) front p back hl hp
  · obtain ⟨hva, hmax⟩ := hab hv
    have hgreat := ih hva
    exact isGreatest_insert hgreat (hmax (hgreat.2 ⟨a, by simp, rfl⟩))
  · rw [List.nil_append, ha hv]
    refine ⟨⟨a, List.mem_singleton_self a, rfl⟩, ?_⟩
    rintro n ⟨q, hq, rfl⟩
    exact (congrArg value (List.mem_singleton.mp hq)).le

end Mark

end Trace

import Mathlib.Data.Set.Basic
import Mathlib.Logic.Relation

/-! What a depth-first search has visited when it comes back. The search starts with the set `R` of
visited vertices, and it does not go on from a vertex of this set. The result depends on the set and
on the vertices that the search was started from, but not on the order of the search. -/
namespace VisitedClosure

variable {α : Type*} (E : α → α → Prop)

/-- What has been visited after a search from the vertices `xs`. -/
inductive Visited (R : Set α) (xs : List α) : α → Prop where
  | old {a : α} (h : a ∈ R) : Visited R xs a
  | start {a : α} (h : a ∈ xs) : Visited R xs a
  | across {a b : α} (h : Visited R xs a) (hnew : a ∉ R) (he : E a b) : Visited R xs b

/-- The visited vertices as a set. -/
def visited (R : Set α) (xs : List α) : Set α := { a | Visited E R xs a }

variable {E}

theorem subset_visited (R : Set α) (xs : List α) : R ⊆ visited E R xs := fun _ h => .old h

theorem visited_nil (R : Set α) : visited E R [] = R := by
  apply Set.Subset.antisymm
  · intro a h
    induction h with
    | old h => exact h
    | start h => exact absurd h List.not_mem_nil
    | across _ hnew _ ih => exact absurd ih hnew
  · exact subset_visited R []

/-- One search after the other. -/
theorem visited_append (R : Set α) (xs ys : List α) :
    visited E R (xs ++ ys) = visited E (visited E R xs) ys := by
  apply Set.Subset.antisymm
  · intro a h
    induction h with
    | old h => exact .old (.old h)
    | start h =>
      rcases List.mem_append.mp h with h | h
      · exact .old (.start h)
      · exact .start h
    | @across a b _ hnew he ih =>
      -- the edge belongs to the first search if that has come to `a`
      by_cases hfirst : a ∈ visited E R xs
      · exact .old (.across hfirst hnew he)
      · exact .across ih hfirst he
  · intro a h
    induction h with
    | old h =>
      induction h with
      | old h => exact .old h
      | start h => exact .start (List.mem_append_left ys h)
      | across _ hnew he ih => exact .across ih hnew he
    | start h => exact .start (List.mem_append_right xs h)
    | across _ hnew he ih => exact .across ih (fun h => hnew (.old h)) he

/-- Nothing happens at a vertex that has been visited. -/
theorem visited_of_mem (R : Set α) (x : α) (h : x ∈ R) : visited E R [x] = R := by
  apply Set.Subset.antisymm
  · intro a ha
    induction ha with
    | old ha => exact ha
    | start ha => rwa [List.mem_singleton.mp ha]
    | across _ hnew _ ih => exact absurd ih hnew
  · exact subset_visited R [x]

/-- A search from `x` that goes to some of the neighbours first, marks `x` then, and goes to the
other neighbours last. It may come back to `x` before `x` is marked. -/
theorem visited_marked (R : Set α) (x : α) (hx : x ∉ R) (before after : List α)
    (hE : ∀ b, E x b ↔ b ∈ before ∨ b ∈ after) :
    visited E (insert x (visited E R before)) after = visited E R [x] := by
  have hroot : Visited E R [x] x := .start List.mem_cons_self
  have hbefore : ∀ a, Visited E R before a → Visited E R [x] a := by
    intro a h
    induction h with
    | old h => exact .old h
    | start h => exact .across hroot hx ((hE _).mpr (Or.inl h))
    | across _ hnew he ih => exact .across ih hnew he
  apply Set.Subset.antisymm
  · intro a h
    induction h with
    | old h =>
      rcases h with h | h
      · rw [h]
        exact hroot
      · exact hbefore _ h
    | start h => exact .across hroot hx ((hE _).mpr (Or.inr h))
    | across _ hnew he ih => exact .across ih (fun h => hnew (Or.inr (.old h))) he
  · intro a h
    induction h with
    | old h => exact .old (Or.inr (.old h))
    | start h => exact .old (Or.inl (List.mem_singleton.mp h))
    | @across a b _ hnew he ih =>
      by_cases hax : a = x
      · rcases (hE b).mp (hax ▸ he) with hb | hb
        · exact .old (Or.inr (.start hb))
        · exact .start hb
      by_cases hfirst : a ∈ visited E R before
      · exact .old (Or.inr (.across hfirst hnew he))
      · exact .across ih (fun h => h.elim hax hfirst) he

/-- A search that starts with nothing visited finds what is reachable. -/
theorem visited_empty (xs : List α) (a : α) :
    a ∈ visited E ∅ xs ↔ ∃ x ∈ xs, Relation.ReflTransGen E x a := by
  constructor
  · intro h
    induction h with
    | old h => exact absurd h (Set.notMem_empty _)
    | start h => exact ⟨_, h, .refl⟩
    | across _ _ he ih =>
      obtain ⟨x, hx, hreach⟩ := ih
      exact ⟨x, hx, hreach.tail he⟩
  · intro h
    obtain ⟨x, hx, hreach⟩ := h
    induction hreach with
    | refl => exact .start hx
    | tail _ he ih => exact .across ih (Set.notMem_empty _) he

end VisitedClosure

import Mathlib.Data.List.Basic
import Mathlib.Data.Set.List
import Mathlib.Tactic.Ring

namespace SortedBlocks

variable {α : Type*} {R : α → α → Prop} {b : ℕ} {l l' : List α}

/-- Every block of `b` elements is in order; the last one may be shorter. -/
def Blocks (R : α → α → Prop) (b : ℕ) (l : List α) : Prop :=
  ∀ k, ((l.drop (k*b)).take b).Pairwise R

theorem blocks_nil : Blocks R b [] := by
  intro k
  rw [List.drop_nil, List.take_nil]
  exact List.Pairwise.nil

theorem blocks_one (l : List α) : Blocks R 1 l := by
  intro k
  cases l.drop (k*1) with
  | nil => exact List.Pairwise.nil
  | cons a rest => exact List.pairwise_singleton R a

theorem Blocks.take (h : Blocks R b l) : (l.take b).Pairwise R := by
  have hfirst := h 0
  rwa [Nat.zero_mul, List.drop_zero] at hfirst

theorem Blocks.drop (h : Blocks R b l) : Blocks R b (l.drop b) := by
  intro k
  have hnext := h (k+1)
  rwa [Nat.succ_mul, Nat.add_comm, ← List.drop_drop] at hnext

theorem Blocks.pairwise (h : Blocks R b l) (hlength : l.length ≤ b) : l.Pairwise R := by
  have hfirst := h.take
  rwa [List.take_of_length_le hlength] at hfirst

/-- A block is appended to full blocks. -/
theorem Blocks.append {m : ℕ} (h : Blocks R b l) (hfull : l.length = m*b) (h' : l'.Pairwise R)
    (hshort : l'.length ≤ b) : Blocks R b (l ++ l') := by
  intro k
  rw [List.drop_append, List.take_append, hfull]
  rcases Nat.lt_or_ge k m with hk | hk
  · -- the block lies in the first list
    have hroom : b ≤ (l.drop (k*b)).length := by
      have hle := Nat.mul_le_mul_right b hk
      rw [Nat.succ_mul] at hle
      rw [List.length_drop, hfull]
      omega
    rw [Nat.sub_eq_zero_of_le hroom, List.take_zero, List.append_nil]
    exact h k
  · have hpast := Nat.mul_le_mul_right b hk
    rw [List.drop_eq_nil_of_le (by rw [hfull]; exact hpast), List.take_nil, List.nil_append]
    exact (h'.sublist (List.drop_sublist _ _)).sublist (List.take_sublist _ _)

/-- Merging keeps lists of elements of `S` in order. -/
def MergeKeeps (S : List α) (le : α → α → Bool) (R : α → α → Prop) : Prop :=
  ∀ xs ys : List α, xs ⊆ S → ys ⊆ S → xs.Pairwise R → ys.Pairwise R → (xs.merge ys le).Pairwise R

theorem mergeKeeps_true (S : List α) (le : α → α → Bool) : MergeKeeps S le fun _ _ => True :=
  fun _ _ _ _ _ _ => List.pairwise_of_forall fun _ _ => trivial

/-- A total preorder on the elements is enough. -/
theorem mergeKeeps_of_preorder (S : List α) (le : α → α → Bool)
    (htrans : ∀ a ∈ S, ∀ c ∈ S, ∀ d ∈ S, le a c → le c d → le a d)
    (htotal : ∀ a ∈ S, ∀ c ∈ S, le a c ∨ le c a) : MergeKeeps S le fun a c => le a c := by
  intro xs ys hxs hys hx hy
  lift xs to List {a // a ∈ S} using hxs
  lift ys to List {a // a ∈ S} using hys
  rw [← List.map_merge (r := fun a c => le a.1 c.1) fun _ _ _ _ => rfl, List.pairwise_map]
  rw [List.pairwise_map] at hx hy
  apply List.pairwise_merge ?_ ?_ xs ys hx hy
  · exact fun a c d => htrans a.1 a.2 c.1 c.2 d.1 d.2
  · intro a c
    simpa using htotal a.1 a.2 c.1 c.2

end SortedBlocks

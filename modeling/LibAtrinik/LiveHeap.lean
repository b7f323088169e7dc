import Mathlib.Data.List.Basic
import Mathlib.Logic.Function.Basic

/-! A heap as the list of its live addresses with what is stored at each. Reading or freeing what is
not live is a fault, and an allocator hands out addresses that are not live. -/
namespace LiveHeap

variable {α : Type*}

structure Heap (α : Type*) where
  live : List ℕ
  stored : ℕ → α

/-- How addresses are chosen. -/
structure Allocator where
  malloc : List ℕ → ℕ
  fresh : ∀ live, malloc live ∉ live

theorem le_foldr_max (live : List ℕ) {address : ℕ} (h : address ∈ live) :
    address ≤ live.foldr max 0 := by
  induction live with
  | nil => cases h
  | cons first live ih =>
    rw [List.foldr_cons]
    rcases List.mem_cons.mp h with rfl | h
    · exact Nat.le_max_left _ _
    · exact Nat.le_trans (ih h) (Nat.le_max_right _ _)

/-- Always the address above the live ones. -/
def Allocator.above : Allocator where
  malloc live := live.foldr max 0 + 1
  fresh live h := Nat.not_succ_le_self _ (le_foldr_max live h)

def Heap.read (h : Heap α) (address : ℕ) : Option α :=
  if address ∈ h.live then some (h.stored address) else none

/-- The heap after an allocation; the address is `m.malloc h.live`. -/
def Heap.alloc (m : Allocator) (h : Heap α) (x : α) : Heap α where
  live := m.malloc h.live :: h.live
  stored := Function.update h.stored (m.malloc h.live) x

def Heap.free (h : Heap α) (address : ℕ) : Option (Heap α) :=
  if address ∈ h.live then some { h with live := h.live.filter (· ≠ address) } else none

theorem mem_live_iff (h : Heap α) (address : ℕ) :
    address ∈ h.live ↔ ∃ x, h.read address = some x := by
  unfold Heap.read
  split <;> simp_all

theorem read_alloc_self (m : Allocator) (h : Heap α) (x : α) :
    (h.alloc m x).read (m.malloc h.live) = some x := by
  simp [Heap.read, Heap.alloc]

/-- What is live stays as it is when something is allocated. -/
theorem read_alloc (m : Allocator) (h : Heap α) (x y : α) {address : ℕ}
    (hread : h.read address = some y) :
    (h.alloc m x).read address = some y ∧ address ≠ m.malloc h.live := by
  have hlive : address ∈ h.live := (mem_live_iff h address).mpr ⟨y,hread⟩
  have hne : address ≠ m.malloc h.live := fun heq => m.fresh h.live (heq ▸ hlive)
  refine ⟨?_, hne⟩
  rw [← hread]
  simp [Heap.read, Heap.alloc, hlive, hne]

/-- Freeing a live address leaves every other one as it is. -/
theorem free_of_read (h : Heap α) {address : ℕ} {x : α} (hread : h.read address = some x) :
    ∃ h', h.free address = some h' ∧ h'.read address = none ∧
      ∀ other, other ≠ address → h'.read other = h.read other := by
  have hlive : address ∈ h.live := (mem_live_iff h address).mpr ⟨x,hread⟩
  refine ⟨{ h with live := h.live.filter (· ≠ address) }, if_pos hlive, ?_, fun other hne => ?_⟩
  · simp [Heap.read]
  · simp [Heap.read, hne]

end LiveHeap

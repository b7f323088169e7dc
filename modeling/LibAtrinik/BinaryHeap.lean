import Mathlib.Order.Basic
import Mathlib.Order.Lattice
import Mathlib.Logic.Equiv.Basic

/-! Binary heaps in an array, as the keys found at the positions `0, 1, 2, …`. The two sifting
loops are not defined here: each has an invariant with one broken place, a rule for the round
that moves this place by a swap, and a rule for the round that stops. -/
namespace BinaryHeap

variable {κ : Type*} [LinearOrder κ]

/-- No position precedes its parent. -/
def Ordered (n : ℕ) (h : ℕ → κ) : Prop := ∀ i, 0 < i → i < n → h ((i-1)/2) ≤ h i

/-- Ordered except that position `p` may precede its parent. -/
structure UpReady (n : ℕ) (h : ℕ → κ) (p : ℕ) : Prop where
  lt : p < n
  off : ∀ i, 0 < i → i < n → i ≠ p → h ((i-1)/2) ≤ h i
  across : ∀ i, 0 < i → i < n → (i-1)/2 = p → 0 < p → h ((p-1)/2) ≤ h i

/-- Ordered except that children of position `p` may precede it. -/
structure DownReady (n : ℕ) (h : ℕ → κ) (p : ℕ) : Prop where
  off : ∀ i, 0 < i → i < n → (i-1)/2 ≠ p → h ((i-1)/2) ≤ h i
  across : ∀ i, 0 < i → i < n → (i-1)/2 = p → 0 < p → h ((p-1)/2) ≤ h i

theorem Ordered.root_le {n : ℕ} {h : ℕ → κ} (ho : Ordered n h) (i : ℕ) (hi : i < n) :
    h 0 ≤ h i := by
  induction i using Nat.strong_induction_on with
  | _ i ih =>
    rcases Nat.eq_zero_or_pos i with rfl | hp
    · exact le_rfl
    · exact (ih ((i-1)/2) (by omega) (by omega)).trans (ho i hp hi)

theorem UpReady.ordered {n : ℕ} {h : ℕ → κ} {p : ℕ} (hr : UpReady n h p)
    (hp : p = 0 ∨ h ((p-1)/2) ≤ h p) : Ordered n h := by
  intro i hi hin
  by_cases hip : i = p
  · subst hip
    exact hp.resolve_left (by omega)
  · exact hr.off i hi hin hip

/-- Appending a key at position `n` breaks the order at that position only. -/
theorem Ordered.append {n : ℕ} {h h' : ℕ → κ} (ho : Ordered n h) (he : ∀ i < n, h' i = h i) :
    UpReady (n+1) h' n := by
  refine ⟨by omega, ?_, ?_⟩
  · intro i hi hin hne
    rw [he i (by omega), he ((i-1)/2) (by omega)]
    exact ho i hi (by omega)
  · intro i hi hin hp h0
    omega

/-- Lowering the key at `p` breaks the order at `p` only. -/
theorem Ordered.decrease {n : ℕ} {h h' : ℕ → κ} (ho : Ordered n h) (p : ℕ) (hp : p < n)
    (he : ∀ i < n, i ≠ p → h' i = h i) (hle : h' p ≤ h p) : UpReady n h' p := by
  refine ⟨hp, ?_, ?_⟩
  · intro i hi hin hne
    rw [he i hin hne]
    by_cases hq : (i-1)/2 = p
    · rw [hq]
      exact hle.trans (hq ▸ ho i hi hin)
    · rw [he ((i-1)/2) (by omega) hq]
      exact ho i hi hin
  · intro i hi hin hq h0
    rw [he i hin (by omega), he ((p-1)/2) (by omega) (by omega)]
    exact (ho p h0 hp).trans (hq ▸ ho i hi hin)

/-- A round of sifting up that swaps `p` with its parent. -/
theorem UpReady.swap {n : ℕ} {h h' : ℕ → κ} {p : ℕ} (hr : UpReady n h p) (h0 : 0 < p)
    (hlt : h p < h ((p-1)/2)) (hs : ∀ i < n, h' i = h (Equiv.swap p ((p-1)/2) i)) :
    UpReady n h' ((p-1)/2) := by
  have hp := hr.lt
  have hother (i : ℕ) (hi : i < n) (h1 : i ≠ p) (h2 : i ≠ (p-1)/2) : h' i = h i := by
    rw [hs i hi, Equiv.swap_apply_of_ne_of_ne h1 h2]
  have hat : h' p = h ((p-1)/2) := by rw [hs p hp, Equiv.swap_apply_left]
  have hpar : h' ((p-1)/2) = h p := by rw [hs _ (by omega), Equiv.swap_apply_right]
  refine ⟨by omega, ?_, ?_⟩
  · intro i hi hin hne
    by_cases hip : i = p
    · subst hip
      rw [hat, hpar]
      exact hlt.le
    · rw [hother i hin hip hne]
      by_cases hq : (i-1)/2 = p
      · rw [hq, hat]
        exact hr.across i hi hin hq h0
      · by_cases hq' : (i-1)/2 = (p-1)/2
        · rw [hq', hpar]
          exact hlt.le.trans (hq' ▸ hr.off i hi hin hip)
        · rw [hother _ (by omega) hq hq']
          exact hr.off i hi hin hip
  · intro i hi hin hq hpos
    rw [hother (((p-1)/2-1)/2) (by omega) (by omega) (by omega)]
    have hup : h (((p-1)/2-1)/2) ≤ h ((p-1)/2) := hr.off _ hpos (by omega) (by omega)
    by_cases hip : i = p
    · rw [hip, hat]
      exact hup
    · rw [hother i hin hip (by omega)]
      exact hup.trans (hq ▸ hr.off i hi hin hip)

/-- Replacing the root breaks the order below the root only. -/
theorem Ordered.replace_root {n : ℕ} {h h' : ℕ → κ} (ho : Ordered n h)
    (he : ∀ i < n, i ≠ 0 → h' i = h i) : DownReady n h' 0 := by
  refine ⟨?_, fun _ _ _ _ h0 => absurd h0 (lt_irrefl 0)⟩
  intro i hi hin hq
  rw [he i hin (by omega), he _ (by omega) hq]
  exact ho i hi hin

theorem Ordered.take {n m : ℕ} {h : ℕ → κ} (ho : Ordered n h) (hm : m ≤ n) : Ordered m h :=
  fun i hi him => ho i hi (by omega)

theorem DownReady.ordered {n : ℕ} {h : ℕ → κ} {p : ℕ} (hr : DownReady n h p)
    (hl : p*2+1 < n → h p ≤ h (p*2+1)) (hg : p*2+1+1 < n → h p ≤ h (p*2+1+1)) :
    Ordered n h := by
  intro i hi hin
  by_cases hq : (i-1)/2 = p
  · rcases (by omega : i = p*2+1 ∨ i = p*2+1+1) with rfl | rfl
    · rw [hq]; exact hl hin
    · rw [hq]; exact hg hin
  · exact hr.off i hi hin hq

/-- A round of sifting down that swaps `p` with the least of its children. -/
theorem DownReady.swap {n : ℕ} {h h' : ℕ → κ} {p c : ℕ} (hr : DownReady n h p)
    (hc0 : 0 < c) (hcn : c < n) (hcp : (c-1)/2 = p) (hlt : h c < h p)
    (hleast : ∀ i, 0 < i → i < n → (i-1)/2 = p → h c ≤ h i)
    (hs : ∀ i < n, h' i = h (Equiv.swap p c i)) : DownReady n h' c := by
  have hother (i : ℕ) (hi : i < n) (h1 : i ≠ p) (h2 : i ≠ c) : h' i = h i := by
    rw [hs i hi, Equiv.swap_apply_of_ne_of_ne h1 h2]
  have hat : h' p = h c := by rw [hs p (by omega), Equiv.swap_apply_left]
  have hchild : h' c = h p := by rw [hs c hcn, Equiv.swap_apply_right]
  refine ⟨?_, ?_⟩
  · intro i hi hin hq
    by_cases hip : i = p
    · -- `p` has received the key of `c`, which `across` compares with the parent of `p`
      subst hip
      rw [hat, hother _ (by omega) (by omega) (by omega)]
      exact hr.across c hc0 hcn hcp hi
    · by_cases hic : i = c
      · rw [hic, hcp, hat, hchild]
        exact hlt.le
      · rw [hother i hin hip hic]
        by_cases hqp : (i-1)/2 = p
        · rw [hqp, hat]
          exact hleast i hi hin hqp
        · rw [hother _ (by omega) hqp hq]
          exact hr.off i hi hin hqp
  · intro i hi hin hq _
    rw [hcp, hat, hother i hin (by omega) (by omega)]
    exact hq ▸ hr.off i hi hin (by omega)

end BinaryHeap

import Mathlib.Data.List.Nodup
import Mathlib.Data.List.Perm.Basic
import Mathlib.Data.List.Range
import Mathlib.Logic.Function.Basic

namespace BlockLedger

variable {κ β : Type*}

/-- A cell is named by its block and its place there. -/
abbrev Cell (β : Type*) := β × ℕ

structure Ledger (κ β : Type*) where
  blocks : κ → List β
  free : κ → List (Cell β)
  used : Cell β → Option κ

/-- Every cell of a block is free or in use, and never both. -/
structure Ledger.Balanced (size : κ → ℕ) (l : Ledger κ β) : Prop where
  blocks_nodup : ∀ k, (l.blocks k).Nodup
  apart : ∀ k k' b, b ∈ l.blocks k → b ∈ l.blocks k' → k = k'
  free_nodup : ∀ k, (l.free k).Nodup
  cell : ∀ k a, (a.1 ∈ l.blocks k ∧ a.2 < size k) ↔ (a ∈ l.free k ∨ l.used a = some k)
  unused : ∀ k a, a ∈ l.free k → l.used a = none

/-- The cells that there are. -/
def Ledger.Allocated (size : κ → ℕ) (l : Ledger κ β) (a : Cell β) : Prop :=
  ∃ k, a.1 ∈ l.blocks k ∧ a.2 < size k

/-- The cells of a block. -/
def cells (n : ℕ) (b : β) : List (Cell β) := (List.range n).map (Prod.mk b)

theorem mem_cells {n : ℕ} {b : β} {a : Cell β} : a ∈ cells n b ↔ a.1 = b ∧ a.2 < n := by
  unfold cells
  rw [List.mem_map]
  constructor
  · intro h
    obtain ⟨i, hi, ha⟩ := h
    rw [← ha]
    exact ⟨rfl, List.mem_range.mp hi⟩
  · intro h
    obtain ⟨hb, hi⟩ := h
    exact ⟨a.2, List.mem_range.mpr hi, Prod.ext hb.symm rfl⟩

theorem cells_nodup (n : ℕ) (b : β) : (cells n b).Nodup :=
  List.nodup_range.map fun _ _ h => (Prod.mk.inj h).2

theorem cells_length (n : ℕ) (b : β) : (cells n b).length = n := by
  unfold cells
  rw [List.length_map, List.length_range]

variable {size : κ → ℕ} {l : Ledger κ β}

/-- A cell that is free for one owner is not in use and not free for another one. -/
theorem Ledger.Balanced.free_apart (h : l.Balanced size) (k k' : κ) (a : Cell β)
    (ha : a ∈ l.free k) (ha' : a ∈ l.free k') : k = k' :=
  h.apart k k' a.1 ((h.cell k a).mpr (Or.inl ha)).1 ((h.cell k' a).mpr (Or.inl ha')).1

theorem Ledger.Balanced.of_used (h : l.Balanced size) {k : κ} {a : Cell β} (ha : l.used a = some k) :
    a.1 ∈ l.blocks k ∧ a.2 < size k := (h.cell k a).mpr (Or.inr ha)

theorem Ledger.Balanced.of_free (h : l.Balanced size) {k : κ} {a : Cell β} (ha : a ∈ l.free k) :
    a.1 ∈ l.blocks k ∧ a.2 < size k := (h.cell k a).mpr (Or.inl ha)

/-- What is in use is not free. -/
theorem Ledger.Balanced.used_not_free (h : l.Balanced size) {k : κ} {a : Cell β}
    (ha : l.used a = some k) (k' : κ) : a ∉ l.free k' := by
  intro hfree
  rw [h.unused k' a hfree] at ha
  cases ha

/-- Of an allocated cell the owner of its block knows whether it is free. -/
theorem Ledger.Balanced.free_iff (h : l.Balanced size) {k : κ} {a : Cell β} (hb : a.1 ∈ l.blocks k)
    (hi : a.2 < size k) : a ∈ l.free k ↔ l.used a = none := by
  constructor
  · exact h.unused k a
  · intro hnone
    rcases (h.cell k a).mp ⟨hb, hi⟩ with hfree | hused
    · exact hfree
    · rw [hnone] at hused
      cases hused

section Operations

variable [DecidableEq κ]

/-- A new block, all of whose cells are free. -/
def Ledger.addBlock (size : κ → ℕ) (l : Ledger κ β) (k : κ) (b : β) : Ledger κ β :=
  { l with
    blocks := Function.update l.blocks k (b :: l.blocks k)
    free := Function.update l.free k (cells (size k) b ++ l.free k) }

/-- The free cells of an owner are other ones. -/
def Ledger.setFree (l : Ledger κ β) (k : κ) (free : List (Cell β)) : Ledger κ β :=
  { l with free := Function.update l.free k free }

theorem Ledger.setFree_self (k : κ) (free : List (Cell β)) : (l.setFree k free).free k = free :=
  Function.update_self _ _ _

theorem Ledger.setFree_other {k k' : κ} (free : List (Cell β)) (h : k' ≠ k) :
    (l.setFree k free).free k' = l.free k' := Function.update_of_ne h _ _

theorem Ledger.addBlock_blocks (k : κ) (b : β) :
    (l.addBlock size k b).blocks k = b :: l.blocks k := Function.update_self _ _ _

theorem Ledger.addBlock_blocks_other {k k' : κ} (b : β) (h : k' ≠ k) :
    (l.addBlock size k b).blocks k' = l.blocks k' := Function.update_of_ne h _ _

theorem Ledger.addBlock_free (k : κ) (b : β) :
    (l.addBlock size k b).free k = cells (size k) b ++ l.free k := Function.update_self _ _ _

theorem Ledger.addBlock_free_other {k k' : κ} (b : β) (h : k' ≠ k) :
    (l.addBlock size k b).free k' = l.free k' := Function.update_of_ne h _ _

/-- A new block has no owner before. -/
theorem Ledger.Balanced.addBlock (h : l.Balanced size) (k : κ) (b : β)
    (hfresh : ∀ k, b ∉ l.blocks k) : (l.addBlock size k b).Balanced size := by
  have hblock : ∀ k' b', b' ∈ (l.addBlock size k b).blocks k' ↔
      b' ∈ l.blocks k' ∨ (k' = k ∧ b' = b) := by
    intro k' b'
    by_cases hk : k' = k
    · rw [hk, Ledger.addBlock_blocks, List.mem_cons, or_comm]
      simp only [true_and]
    · rw [Ledger.addBlock_blocks_other b hk]
      simp only [hk, false_and, or_false]
  have hfree : ∀ k' a, a ∈ (l.addBlock size k b).free k' ↔
      a ∈ l.free k' ∨ (k' = k ∧ a.1 = b ∧ a.2 < size k) := by
    intro k' a
    by_cases hk : k' = k
    · rw [hk, Ledger.addBlock_free, List.mem_append, mem_cells, or_comm]
      simp only [true_and]
    · rw [Ledger.addBlock_free_other b hk]
      simp only [hk, false_and, or_false]
  refine ⟨?_, ?_, ?_, ?_, ?_⟩
  · intro k'
    by_cases hk : k' = k
    · rw [hk, Ledger.addBlock_blocks]
      exact List.nodup_cons.mpr ⟨hfresh k, h.blocks_nodup k⟩
    · rw [Ledger.addBlock_blocks_other b hk]
      exact h.blocks_nodup k'
  · intro k₁ k₂ b' h₁ h₂
    rcases (hblock k₁ b').mp h₁ with hold₁ | ⟨hk₁, hb₁⟩
    · rcases (hblock k₂ b').mp h₂ with hold₂ | ⟨_, hb₂⟩
      · exact h.apart k₁ k₂ b' hold₁ hold₂
      · exact absurd (hb₂ ▸ hold₁) (hfresh k₁)
    · rcases (hblock k₂ b').mp h₂ with hold₂ | ⟨hk₂, _⟩
      · exact absurd (hb₁ ▸ hold₂) (hfresh k₂)
      · rw [hk₁, hk₂]
  · intro k'
    by_cases hk : k' = k
    · rw [hk, Ledger.addBlock_free, List.nodup_append]
      refine ⟨cells_nodup _ _, h.free_nodup k, ?_⟩
      intro a ha c hc hac
      have hb := (mem_cells.mp ha).1
      exact hfresh k (hb ▸ hac ▸ (h.of_free hc).1)
    · rw [Ledger.addBlock_free_other b hk]
      exact h.free_nodup k'
  · intro k' a
    rw [hblock, hfree]
    change _ ↔ _ ∨ l.used a = some k'
    have hold := h.cell k' a
    constructor
    · intro hcell
      obtain ⟨hin | ⟨hk, hb⟩, hi⟩ := hcell
      · rcases hold.mp ⟨hin, hi⟩ with hf | hu
        · exact Or.inl (Or.inl hf)
        · exact Or.inr hu
      · exact Or.inl (Or.inr ⟨hk, hb, hk ▸ hi⟩)
    · intro hcell
      rcases hcell with (hf | ⟨hk, hb, hi⟩) | hu
      · have hin := hold.mpr (Or.inl hf)
        exact ⟨Or.inl hin.1, hin.2⟩
      · exact ⟨Or.inr ⟨hk, hb⟩, hk ▸ hi⟩
      · have hin := hold.mpr (Or.inr hu)
        exact ⟨Or.inl hin.1, hin.2⟩
  · intro k' a ha
    change l.used a = none
    rcases (hfree k' a).mp ha with hf | ⟨_, hb, _⟩
    · exact h.unused k' a hf
    · cases hu : l.used a with
      | none => rfl
      | some k₂ => exact absurd (hb ▸ (h.of_used hu).1) (hfresh k₂)

theorem Ledger.addBlock_allocated (k : κ) (b : β) (a : Cell β) :
    (l.addBlock size k b).Allocated size a ↔ l.Allocated size a ∨ (a.1 = b ∧ a.2 < size k) := by
  constructor
  · intro h
    obtain ⟨k', hb, hi⟩ := h
    by_cases hk : k' = k
    · rw [hk, Ledger.addBlock_blocks] at hb
      rcases List.mem_cons.mp hb with hnew | hold
      · exact Or.inr ⟨hnew, hk ▸ hi⟩
      · exact Or.inl ⟨k, hold, hk ▸ hi⟩
    · rw [Ledger.addBlock_blocks_other b hk] at hb
      exact Or.inl ⟨k', hb, hi⟩
  · intro h
    rcases h with ⟨k', hb, hi⟩ | ⟨hb, hi⟩
    · refine ⟨k', ?_, hi⟩
      by_cases hk : k' = k
      · rw [hk, Ledger.addBlock_blocks]
        exact List.mem_cons_of_mem b (hk ▸ hb)
      · rwa [Ledger.addBlock_blocks_other b hk]
    · refine ⟨k, ?_, hi⟩
      rw [Ledger.addBlock_blocks, hb]
      exact List.mem_cons_self

/-- The order of the free cells does not matter. -/
theorem Ledger.Balanced.reorder (h : l.Balanced size) (k : κ) (free : List (Cell β))
    (hperm : free.Perm (l.free k)) : (l.setFree k free).Balanced size := by
  have hmem : ∀ k' a, a ∈ (l.setFree k free).free k' ↔ a ∈ l.free k' := by
    intro k' a
    by_cases hk : k' = k
    · rw [hk, Ledger.setFree_self, hperm.mem_iff]
    · rw [Ledger.setFree_other free hk]
  refine ⟨h.blocks_nodup, h.apart, ?_, ?_, ?_⟩
  · intro k'
    by_cases hk : k' = k
    · rw [hk, Ledger.setFree_self]
      exact hperm.nodup_iff.mpr (h.free_nodup k)
    · rw [Ledger.setFree_other free hk]
      exact h.free_nodup k'
  · intro k' a
    rw [hmem]
    exact h.cell k' a
  · intro k' a ha
    exact h.unused k' a ((hmem k' a).mp ha)

variable [DecidableEq β]

/-- The first free cell comes into use. -/
def Ledger.take (l : Ledger κ β) (k : κ) (a : Cell β) (rest : List (Cell β)) : Ledger κ β :=
  { l.setFree k rest with used := Function.update l.used a (some k) }

/-- A cell is free again. -/
def Ledger.give (l : Ledger κ β) (k : κ) (a : Cell β) : Ledger κ β :=
  { l.setFree k (a :: l.free k) with used := Function.update l.used a none }

/-- A block is given up. -/
def Ledger.discard (l : Ledger κ β) (k : κ) (b : β) : Ledger κ β :=
  { l with
    blocks := Function.update l.blocks k ((l.blocks k).erase b)
    free := Function.update l.free k ((l.free k).filter fun a => a.1 ≠ b) }

theorem Ledger.discard_blocks (k : κ) (b : β) :
    (l.discard k b).blocks k = (l.blocks k).erase b := Function.update_self _ _ _

theorem Ledger.discard_blocks_other {k k' : κ} (b : β) (h : k' ≠ k) :
    (l.discard k b).blocks k' = l.blocks k' := Function.update_of_ne h _ _

theorem Ledger.discard_free (k : κ) (b : β) :
    (l.discard k b).free k = (l.free k).filter fun a => a.1 ≠ b := Function.update_self _ _ _

theorem Ledger.discard_free_other {k k' : κ} (b : β) (h : k' ≠ k) :
    (l.discard k b).free k' = l.free k' := Function.update_of_ne h _ _

theorem Ledger.Balanced.take (h : l.Balanced size) (k : κ) (a : Cell β) (rest : List (Cell β))
    (hfree : l.free k = a :: rest) : (l.take k a rest).Balanced size := by
  have hhead : a ∈ l.free k := hfree ▸ List.mem_cons_self
  have hnodup := h.free_nodup k
  rw [hfree, List.nodup_cons] at hnodup
  have hmem : ∀ k' c, c ∈ (l.take k a rest).free k' ↔ c ∈ l.free k' ∧ c ≠ a := by
    intro k' c
    by_cases hk : k' = k
    · rw [hk, show (l.take k a rest).free k = rest from Function.update_self _ _ _, hfree,
        List.mem_cons]
      constructor
      · intro hc
        exact ⟨Or.inr hc, fun hca => hnodup.1 (hca ▸ hc)⟩
      · intro hc
        exact hc.1.resolve_left hc.2
    · rw [show (l.take k a rest).free k' = l.free k' from Function.update_of_ne hk _ _]
      constructor
      · intro hc
        exact ⟨hc, fun hca => hk (h.free_apart k' k a (hca ▸ hc) hhead)⟩
      · exact And.left
  have hused : ∀ c, (l.take k a rest).used c = if c = a then some k else l.used c :=
    fun c => Function.update_apply _ _ _ _
  refine ⟨h.blocks_nodup, h.apart, ?_, ?_, ?_⟩
  · intro k'
    by_cases hk : k' = k
    · rw [hk, show (l.take k a rest).free k = rest from Function.update_self _ _ _]
      exact hnodup.2
    · rw [show (l.take k a rest).free k' = l.free k' from Function.update_of_ne hk _ _]
      exact h.free_nodup k'
  · intro k' c
    change (c.1 ∈ l.blocks k' ∧ c.2 < size k') ↔ _
    rw [h.cell k' c, hmem, hused]
    by_cases hca : c = a
    · rw [if_pos hca, hca, h.unused k a hhead]
      constructor
      · intro hc
        rcases hc with hc | hc
        · exact Or.inr (congrArg some (h.free_apart k k' a hhead hc))
        · cases hc
      · intro hc
        rcases hc with hc | hc
        · exact absurd rfl hc.2
        · exact Or.inl (Option.some.inj hc ▸ hhead)
    · rw [if_neg hca]
      simp only [hca, ne_eq, not_false_eq_true, and_true]
  · intro k' c hc
    have hold := (hmem k' c).mp hc
    rw [hused, if_neg hold.2]
    exact h.unused k' c hold.1

theorem Ledger.Balanced.give (h : l.Balanced size) (k : κ) (a : Cell β) (ha : l.used a = some k) :
    (l.give k a).Balanced size := by
  have hmem : ∀ k' c, c ∈ (l.give k a).free k' ↔ c ∈ l.free k' ∨ (k' = k ∧ c = a) := by
    intro k' c
    by_cases hk : k' = k
    · rw [hk, show (l.give k a).free k = a :: l.free k from Function.update_self _ _ _,
        List.mem_cons, or_comm]
      simp only [true_and]
    · rw [show (l.give k a).free k' = l.free k' from Function.update_of_ne hk _ _]
      simp only [hk, false_and, or_false]
  have hused : ∀ c, (l.give k a).used c = if c = a then none else l.used c :=
    fun c => Function.update_apply _ _ _ _
  refine ⟨h.blocks_nodup, h.apart, ?_, ?_, ?_⟩
  · intro k'
    by_cases hk : k' = k
    · rw [hk, show (l.give k a).free k = a :: l.free k from Function.update_self _ _ _]
      exact List.nodup_cons.mpr ⟨h.used_not_free ha k, h.free_nodup k⟩
    · rw [show (l.give k a).free k' = l.free k' from Function.update_of_ne hk _ _]
      exact h.free_nodup k'
  · intro k' c
    change (c.1 ∈ l.blocks k' ∧ c.2 < size k') ↔ _
    rw [h.cell k' c, hmem, hused]
    by_cases hca : c = a
    · rw [if_pos hca, hca, ha]
      constructor
      · intro hc
        rcases hc with hc | hc
        · exact absurd hc (h.used_not_free ha k')
        · exact Or.inl (Or.inr ⟨(Option.some.inj hc).symm, rfl⟩)
      · intro hc
        rcases hc with (hc | hc) | hc
        · exact Or.inl hc
        · exact Or.inr (congrArg some hc.1.symm)
        · cases hc
    · rw [if_neg hca]
      simp only [hca, and_false, or_false]
  · intro k' c hc
    rw [hused]
    by_cases hca : c = a
    · rw [if_pos hca]
    · rw [if_neg hca]
      rcases (hmem k' c).mp hc with hold | hnew
      · exact h.unused k' c hold
      · exact absurd hnew.2 hca

/-- A block may be given up when none of its cells is in use. -/
theorem Ledger.Balanced.discard (h : l.Balanced size) (k : κ) (b : β) (hb : b ∈ l.blocks k)
    (hunused : ∀ i, l.used (b, i) = none) : (l.discard k b).Balanced size := by
  have hblock : ∀ k' b', b' ∈ (l.discard k b).blocks k' ↔ b' ∈ l.blocks k' ∧ b' ≠ b := by
    intro k' b'
    by_cases hk : k' = k
    · rw [hk, Ledger.discard_blocks, (h.blocks_nodup k).mem_erase_iff, and_comm]
    · rw [Ledger.discard_blocks_other b hk]
      constructor
      · intro hin
        exact ⟨hin, fun hbb => hk (h.apart k' k b (hbb ▸ hin) hb)⟩
      · exact And.left
  have hfree : ∀ k' a, a ∈ (l.discard k b).free k' ↔ a ∈ l.free k' ∧ a.1 ≠ b := by
    intro k' a
    by_cases hk : k' = k
    · rw [hk, Ledger.discard_free, List.mem_filter, decide_eq_true_iff]
    · rw [Ledger.discard_free_other b hk]
      constructor
      · intro hin
        exact ⟨hin, fun hbb => hk (h.apart k' k b (hbb ▸ (h.of_free hin).1) hb)⟩
      · exact And.left
  refine ⟨?_, ?_, ?_, ?_, ?_⟩
  · intro k'
    by_cases hk : k' = k
    · rw [hk, Ledger.discard_blocks]
      exact (h.blocks_nodup k).erase b
    · rw [Ledger.discard_blocks_other b hk]
      exact h.blocks_nodup k'
  · intro k₁ k₂ b' h₁ h₂
    exact h.apart k₁ k₂ b' ((hblock k₁ b').mp h₁).1 ((hblock k₂ b').mp h₂).1
  · intro k'
    by_cases hk : k' = k
    · rw [hk, Ledger.discard_free]
      exact (h.free_nodup k).filter _
    · rw [Ledger.discard_free_other b hk]
      exact h.free_nodup k'
  · intro k' a
    rw [hblock, hfree]
    change _ ↔ _ ∨ l.used a = some k'
    constructor
    · intro hcell
      obtain ⟨⟨hin, hne⟩, hi⟩ := hcell
      rcases (h.cell k' a).mp ⟨hin, hi⟩ with hf | hu
      · exact Or.inl ⟨hf, hne⟩
      · exact Or.inr hu
    · intro hcell
      rcases hcell with ⟨hf, hne⟩ | hu
      · have hin := h.of_free hf
        exact ⟨⟨hin.1, hne⟩, hin.2⟩
      · have hin := h.of_used hu
        refine ⟨⟨hin.1, ?_⟩, hin.2⟩
        intro hab
        have hnone := hunused a.2
        rw [show (b, a.2) = a from Prod.ext hab.symm rfl, hu] at hnone
        cases hnone
  · intro k' a ha
    exact h.unused k' a ((hfree k' a).mp ha).1

theorem Ledger.Balanced.discard_allocated (h : l.Balanced size) (k : κ) (b : β)
    (hb : b ∈ l.blocks k) (a : Cell β) :
    (l.discard k b).Allocated size a ↔ l.Allocated size a ∧ a.1 ≠ b := by
  constructor
  · intro hcell
    obtain ⟨k', hin, hi⟩ := hcell
    by_cases hk : k' = k
    · rw [hk, Ledger.discard_blocks, (h.blocks_nodup k).mem_erase_iff] at hin
      exact ⟨⟨k, hin.2, hk ▸ hi⟩, hin.1⟩
    · rw [Ledger.discard_blocks_other b hk] at hin
      exact ⟨⟨k', hin, hi⟩, fun hbb => hk (h.apart k' k b (hbb ▸ hin) hb)⟩
  · intro hcell
    obtain ⟨⟨k', hin, hi⟩, hne⟩ := hcell
    refine ⟨k', ?_, hi⟩
    by_cases hk : k' = k
    · rw [hk, Ledger.discard_blocks, (h.blocks_nodup k).mem_erase_iff]
      exact ⟨hne, hk ▸ hin⟩
    · rwa [Ledger.discard_blocks_other b hk]

/-- The free cells that go with a block are all of its cells. -/
theorem Ledger.Balanced.discard_length (h : l.Balanced size) (k : κ) (b : β) (hb : b ∈ l.blocks k)
    (hunused : ∀ i, l.used (b, i) = none) :
    (l.free k).length = ((l.discard k b).free k).length+size k := by
  have hperm : ((l.free k).filter fun a => ¬ a.1 ≠ b).Perm (cells (size k) b) := by
    apply (List.perm_ext_iff_of_nodup ((h.free_nodup k).filter _) (cells_nodup _ _)).mpr
    intro a
    rw [List.mem_filter, mem_cells, decide_eq_true_iff, not_not]
    constructor
    · intro ha
      exact ⟨ha.2, (h.of_free ha.1).2⟩
    · intro ha
      refine ⟨(h.free_iff (ha.1 ▸ hb) ha.2).mpr ?_, ha.1⟩
      rw [show a = (b, a.2) from Prod.ext ha.1 rfl]
      exact hunused a.2
  have hsplit := List.length_eq_length_filter_add (l := l.free k) fun a => decide (a.1 ≠ b)
  have hrest : ((l.free k).filter fun a => !decide (a.1 ≠ b)).length = size k := by
    rw [← cells_length (size k) b, ← hperm.length_eq]
    congr 1
    apply List.filter_congr
    intro a _
    exact (decide_not (p := a.1 ≠ b)).symm
  rw [hsplit, hrest, Ledger.discard_free]

end Operations

end BlockLedger

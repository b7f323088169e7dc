import Mathlib.Data.Finset.Card
import Mathlib.Data.Finset.Insert
import Mathlib.Data.Finset.Range
import Mathlib.Data.Nat.Find
import Mathlib.Logic.Function.Basic

/-! Open addressing with linear probing: `slots j` is the item in slot `j` of a table of `cap`
slots, and the search for a key starts at its home slot and goes on cyclically. -/
namespace LinearProbing

variable {ι κ : Type*} {cap : ℕ} {home : κ → ℕ} {key : ι → κ}
  {slots : ℕ → Option ι} {items : Finset ι}

/-- The table holds exactly `items`: each in one slot, and no empty slot lies between the home
slot of its key and the slot it is in. -/
structure Holds (cap : ℕ) (home : κ → ℕ) (key : ι → κ) (slots : ℕ → Option ι)
    (items : Finset ι) : Prop where
  sound : ∀ j < cap, ∀ i, slots j = some i → i ∈ items
  unique : ∀ j < cap, ∀ j' < cap, ∀ i, slots j = some i → slots j' = some i → j = j'
  reach : ∀ i ∈ items, ∃ d < cap, slots ((home (key i)+d)%cap) = some i ∧
    ∀ e < d, slots ((home (key i)+e)%cap) ≠ none

/-- The search for `k` ends `d` slots after the home slot. -/
structure EndsAt (cap : ℕ) (home : κ → ℕ) (key : ι → κ) (slots : ℕ → Option ι) (k : κ)
    (d : ℕ) : Prop where
  lt : d < cap
  stop : ∀ i, slots ((home k+d)%cap) = some i → key i = k
  pass : ∀ e < d, ∃ i, slots ((home k+e)%cap) = some i ∧ key i ≠ k

theorem holds_empty (cap : ℕ) (home : κ → ℕ) (key : ι → κ) :
    Holds cap home key (fun _ => none) ∅ := by
  refine ⟨?_, ?_, ?_⟩
  · intro j _ i h
    cases h
  · intro j _ j' _ i h
    cases h
  · intro i hi
    exact absurd hi (Finset.notMem_empty i)

/-- There are at most as many slots in use as there are items. -/
theorem Holds.card_used_le (hh : Holds cap home key slots items) :
    ((Finset.range cap).filter fun j => (slots j).isSome).card ≤ items.card := by
  rw [← Finset.card_map (s := items) Function.Embedding.some]
  have hitem (j : ℕ) (hj : j ∈ (Finset.range cap).filter fun j => (slots j).isSome) :
      j < cap ∧ ∃ i, slots j = some i := by
    rw [Finset.mem_filter, Finset.mem_range] at hj
    exact ⟨hj.1, Option.isSome_iff_exists.mp hj.2⟩
  apply Finset.card_le_card_of_injOn slots
  · intro j hj
    obtain ⟨hlt, i, hi⟩ := hitem j hj
    rw [hi]
    exact Finset.mem_map_of_mem _ (hh.sound j hlt i hi)
  · intro j hj j' hj' heq
    obtain ⟨hlt, i, hi⟩ := hitem j hj
    exact hh.unique j hlt j' (hitem j' hj').1 i hi (heq ▸ hi)

/-- The slots that are not in use. -/
theorem Holds.card_empty_ge (hh : Holds cap home key slots items) :
    cap-items.card ≤ ((Finset.range cap).filter fun j => slots j = none).card := by
  have hsplit := Finset.card_filter_add_card_filter_not (s := Finset.range cap)
    (fun j => (slots j).isSome)
  rw [Finset.card_range] at hsplit
  have hnone : ((Finset.range cap).filter fun j => ¬ (slots j).isSome) =
      (Finset.range cap).filter fun j => slots j = none :=
    Finset.filter_congr fun j _ => by simp
  rw [hnone] at hsplit
  have := hh.card_used_le
  omega

/-- A table with fewer items than slots has an empty slot. -/
theorem Holds.exists_empty (hh : Holds cap home key slots items) (hc : items.card < cap) :
    ∃ j < cap, slots j = none := by
  have hcard := hh.card_empty_ge
  obtain ⟨j, hj⟩ := Finset.card_pos.mp (by omega :
    0 < ((Finset.range cap).filter fun j => slots j = none).card)
  rw [Finset.mem_filter, Finset.mem_range] at hj
  exact ⟨j, hj⟩

/-- The search for any key ends. -/
theorem Holds.exists_endsAt (hh : Holds cap home key slots items) (hc : items.card < cap)
    (k : κ) : ∃ d, EndsAt cap home key slots k d := by
  classical
  obtain ⟨j, hj, he⟩ := hh.exists_empty hc
  have hcap : 0 < cap := by omega
  have hm : home k%cap < cap := Nat.mod_lt _ hcap
  -- the distance from the home slot to the empty slot
  have hslot : (home k+(j+cap-home k%cap)%cap)%cap = j := by
    have h1 : (home k+(j+cap-home k%cap)%cap)%cap = (home k%cap+(j+cap-home k%cap))%cap := by
      rw [Nat.add_mod, Nat.mod_mod, ← Nat.add_mod, Nat.add_mod (home k%cap), Nat.mod_mod,
        ← Nat.add_mod]
    rw [h1, show home k%cap+(j+cap-home k%cap) = j+cap by omega, Nat.add_mod_right,
      Nat.mod_eq_of_lt hj]
  have hex : ∃ d, ∀ i, slots ((home k+d)%cap) = some i → key i = k := by
    refine ⟨(j+cap-home k%cap)%cap, ?_⟩
    intro i hi
    rw [hslot, he] at hi
    cases hi
  refine ⟨Nat.find hex, ?_, Nat.find_spec hex, ?_⟩
  · apply lt_of_le_of_lt (Nat.find_min' hex (m := (j+cap-home k%cap)%cap) ?_) (Nat.mod_lt _ hcap)
    intro i hi
    rw [hslot, he] at hi
    cases hi
  · intro e hlt
    have hmin := Nat.find_min hex hlt
    push Not at hmin
    exact hmin

/-- The search for a key that is present ends at its item. -/
theorem Holds.endsAt_present (hh : Holds cap home key slots items) (k : κ) (d : ℕ)
    (he : EndsAt cap home key slots k d) (i : ι) (hi : i ∈ items) (hk : key i = k)
    (hinj : ∀ i' ∈ items, key i' = k → i' = i) : slots ((home k+d)%cap) = some i := by
  obtain ⟨d', hd', hs, hp⟩ := hh.reach i hi
  rw [hk] at hs hp
  have hcap : 0 < cap := by omega
  rcases lt_trichotomy d d' with hlt | rfl | hgt
  · obtain ⟨i', hi'⟩ := Option.ne_none_iff_exists'.mp (hp d hlt)
    have hin := hh.sound _ (Nat.mod_lt _ hcap) _ hi'
    rw [hi', hinj i' hin (he.stop i' hi')]
  · exact hs
  · obtain ⟨i', hi', hne⟩ := he.pass d' hgt
    rw [hs] at hi'
    exact absurd (Option.some.inj hi' ▸ hk) hne

/-- The search for a key that is absent ends at an empty slot. -/
theorem Holds.endsAt_absent (hh : Holds cap home key slots items) (k : κ) (d : ℕ)
    (he : EndsAt cap home key slots k d) (hk : ∀ i ∈ items, key i ≠ k) :
    slots ((home k+d)%cap) = none := by
  cases hs : slots ((home k+d)%cap) with
  | none => rfl
  | some i =>
    have hcap : 0 < cap := by have := he.lt; omega
    exact absurd (he.stop i hs) (hk i (hh.sound _ (Nat.mod_lt _ hcap) _ hs))

/-- Storing a new item where the search for its key ends. -/
theorem Holds.insert [DecidableEq ι] (hh : Holds cap home key slots items) (i : ι) (d : ℕ)
    (he : EndsAt cap home key slots (key i) d) (hi : i ∉ items)
    (hk : ∀ i' ∈ items, key i' ≠ key i) :
    Holds cap home key (Function.update slots ((home (key i)+d)%cap) (some i))
      (insert i items) := by
  have hempty := hh.endsAt_absent (key i) d he hk
  refine ⟨?_, ?_, ?_⟩
  · intro j hj i' hi'
    by_cases hjs : j = (home (key i)+d)%cap
    · rw [hjs, Function.update_self] at hi'
      exact Option.some.inj hi' ▸ Finset.mem_insert_self i items
    · rw [Function.update_of_ne hjs] at hi'
      exact Finset.mem_insert_of_mem (hh.sound j hj i' hi')
  · intro j hj j' hj' i' h h'
    by_cases hjs : j = (home (key i)+d)%cap <;> by_cases hjs' : j' = (home (key i)+d)%cap
    · rw [hjs, hjs']
    · rw [hjs, Function.update_self] at h
      rw [Function.update_of_ne hjs'] at h'
      exact absurd (hh.sound j' hj' i' h') (Option.some.inj h ▸ hi)
    · rw [hjs', Function.update_self] at h'
      rw [Function.update_of_ne hjs] at h
      exact absurd (hh.sound j hj i' h) (Option.some.inj h' ▸ hi)
    · rw [Function.update_of_ne hjs] at h
      rw [Function.update_of_ne hjs'] at h'
      exact hh.unique j hj j' hj' i' h h'
  · -- an occupied slot stays occupied, so the old items are reached as before
    have hkeep (j : ℕ) (hj : slots j ≠ none) :
        Function.update slots ((home (key i)+d)%cap) (some i) j ≠ none := by
      by_cases hjs : j = (home (key i)+d)%cap
      · rw [hjs, Function.update_self]
        exact Option.some_ne_none i
      · rwa [Function.update_of_ne hjs]
    intro i' hi'
    rcases Finset.mem_insert.mp hi' with rfl | hold
    · refine ⟨d, he.lt, Function.update_self .., ?_⟩
      intro e hlt
      obtain ⟨i'', hi'', _⟩ := he.pass e hlt
      exact hkeep _ (by rw [hi'']; exact Option.some_ne_none i'')
    · obtain ⟨d', hd', hs, hp⟩ := hh.reach i' hold
      refine ⟨d', hd', ?_, fun e hlt => hkeep _ (hp e hlt)⟩
      rw [Function.update_of_ne, hs]
      intro hc
      rw [hc, hempty] at hs
      cases hs

end LinearProbing

import LibAtrinik.SortLinkedListPasses

namespace LibAtrinik.SortLinkedList

open IntrusiveList SortedBlocks

variable {π : Type}

/-- A comparison that always has a result. -/
def always (compare : π → π → Int) : π → π → Option Int := fun a c => some (compare a c)

theorem before_always (compare : π → π → Int) (a c : π) :
    before (always compare) a c = true ↔ compare a c ≤ 0 := by
  rw [before, always]
  exact decide_eq_true_iff

variable [DecidableEq π]

/-- A list that ends in the null pointer is sorted by a total preorder of its records: afterwards
it ends in the null pointer, has the same records, and every record is before the later ones. -/
theorem sortLinkedList_sorts (compare : π → π → Int) (null p : π) (stack : Fin 4 → Tape π)
    (next : Links π) (l : List π) (fuel : ℕ) (hchain : Seg id next p l null) (hnull : null ∉ l)
    (htrans : ∀ a ∈ l, ∀ c ∈ l, ∀ d ∈ l, compare a c ≤ 0 → compare c d ≤ 0 → compare a d ≤ 0)
    (htotal : ∀ a ∈ l, ∀ c ∈ l, compare a c ≤ 0 ∨ compare c a ≤ 0) (hfuel : l.length ≤ fuel) :
    ∃ first next' l', sortLinkedList null stack (always compare) fuel null p next =
        some (first, l.length, next') ∧
      Seg id next' first l' null ∧ l'.Perm l ∧ l'.Nodup ∧
      l'.Pairwise fun a c => compare a c ≤ 0 := by
  have hkeeps : MergeKeeps l (before (always compare)) fun a c => before (always compare) a c := by
    apply mergeKeeps_of_preorder <;> simp only [before_always]
    · exact htrans
    · exact htotal
  obtain ⟨first, next', l', hrun, hperm, hseg, _, hsorted⟩ :=
    sortLinkedList_ordered (always compare) null null p stack fuel l hchain hnull hfuel
      (fun a _ c _ => ⟨compare a c, rfl⟩) hkeeps
  rw [ite_self] at hseg
  simp only [before_always] at hsorted
  exact ⟨first, next', l', hrun, hseg, hperm, hperm.nodup_iff.mpr (nodup_of_seg hchain hnull),
    hsorted⟩

/-- Three records with the keys 3, 1 and 2. -/
theorem sortLinkedList_sorts_three :
    ∃ first next' l', sortLinkedList 0 (fun _ => ⟨0, 0, 0⟩) (always fun a c : ℕ => (a : ℤ)-c) 3 0 3
        (fun a => if a = 3 then some 1 else if a = 1 then some 2 else if a = 2 then some 0 else
          none) = some (first, 3, next') ∧
      Seg id next' first l' 0 ∧ l'.Perm [3,1,2] ∧ l'.Nodup ∧
      l'.Pairwise fun a c : ℕ => (a : ℤ)-c ≤ 0 :=
  sortLinkedList_sorts (fun a c : ℕ => (a : ℤ)-c) 0 3 (fun _ => ⟨0, 0, 0⟩) _ [3,1,2] 3
    ⟨rfl, 1, rfl, rfl, 2, rfl, rfl, 0, rfl, rfl⟩ (by decide)
    (fun _ _ _ _ _ _ h h' => by omega) (fun _ _ _ _ => by omega) (by decide)

/-- The sort honours an end marker other than the null pointer when there are two records at least:
shorter lists end in the null pointer afterwards. -/
theorem sortLinkedList_end_iff (compare : π → π → Int) (null endMarker p : π)
    (stack : Fin 4 → Tape π) (next : Links π) (l : List π) (fuel : ℕ)
    (hchain : Seg id next p l endMarker) (hoff : endMarker ∉ l) (hfuel : l.length ≤ fuel) :
    ∃ first next', sortLinkedList null stack (always compare) fuel endMarker p next =
        some (first, l.length, next') ∧
      ((∃ l', l'.Perm l ∧ Seg id next' first l' endMarker) ↔ endMarker = null ∨ 2 ≤ l.length) := by
  obtain ⟨first, next', l', hrun, hperm, hseg, _⟩ :=
    sortLinkedList_ordered (always compare) null endMarker p stack fuel l hchain hoff hfuel
      (fun a _ c _ => ⟨compare a c, rfl⟩) (mergeKeeps_true l _)
  refine ⟨first, next', hrun, ?_, ?_⟩
  · rintro ⟨l'', hperm', hseg'⟩
    by_contra hno
    obtain ⟨hmarker, hshort⟩ := not_or.mp hno
    rw [if_neg (by omega)] at hseg
    cases l with
    | nil =>
      rw [hperm.eq_nil] at hseg
      rw [hperm'.eq_nil] at hseg'
      exact hmarker (hseg'.symm.trans hseg)
    | cons a rest =>
      obtain rfl : rest = [] := by
        apply List.eq_nil_of_length_eq_zero
        rw [List.length_cons] at hshort
        omega
      rw [List.perm_singleton.mp hperm] at hseg
      rw [List.perm_singleton.mp hperm'] at hseg'
      obtain ⟨_, r, hr, hnull⟩ := hseg
      obtain ⟨_, r', hr', hend⟩ := hseg'
      rw [hr] at hr'
      have hnull : r = null := hnull
      have hend : r' = endMarker := hend
      exact hmarker (hend.symm.trans ((Option.some.inj hr').symm.trans hnull))
  · rintro (rfl | hmany)
    · rw [ite_self] at hseg
      exact ⟨l', hperm, hseg⟩
    · rw [if_pos (by omega)] at hseg
      exact ⟨l', hperm, hseg⟩

/-- The empty list with an end marker of 1, and the null pointer as the result. -/
theorem sortLinkedList_end_empty :
    Seg id (fun _ : ℕ => none) 1 [] 1 ∧
    sortLinkedList 0 (fun _ => ⟨0, 0, 0⟩) (always fun _ _ : ℕ => 0) 0 1 1 (fun _ => none) =
      some (0, 0, fun _ => none) ∧
    ¬∃ l' : List ℕ, l'.Perm [] ∧ Seg id (fun _ : ℕ => none) 0 l' 1 := by
  refine ⟨rfl, rfl, ?_⟩
  rintro ⟨l', hperm, hseg⟩
  rw [hperm.eq_nil] at hseg
  have hend : 0 = 1 := hseg
  omega

/-- A list of one record, and of two. -/
theorem sortLinkedList_end_iff_one :
    ∃ first next', sortLinkedList 0 (fun _ => ⟨0, 0, 0⟩) (always fun _ _ : ℕ => 0) 1 9 3
        (fun a => if a = 3 then some 9 else none) = some (first, 1, next') ∧
      ((∃ l', l'.Perm [3] ∧ Seg id next' first l' 9) ↔ 9 = 0 ∨ 2 ≤ [3].length) :=
  sortLinkedList_end_iff (fun _ _ : ℕ => 0) 0 9 3 (fun _ => ⟨0, 0, 0⟩) _ [3] 1
    ⟨rfl, 9, rfl, rfl⟩ (by decide) (by decide)

end LibAtrinik.SortLinkedList

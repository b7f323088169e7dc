import LibAtrinik.Path

namespace LibAtrinik.Path

open LexicalPath

/-- The paths that are safe to resolve below a directory. -/
structure SafeRelative (path : List Char) : Prop where
  nonempty : path ≠ []
  backslash : '\\' ∉ path
  colon : ':' ∉ path
  components : ∀ component ∈ path.splitOn '/',
    component ≠ [] ∧ component ≠ ['.'] ∧ component ≠ ['.','.']

/-- What the scan asks of a finished component. -/
theorem component_check (component rest : List Char) :
    (component.length = 0 ∨ (component.length = 1 ∧ (component++rest)[0]? = some '.') ∨
      (component.length = 2 ∧ (component++rest)[0]? = some '.' ∧
        (component++rest)[1]? = some '.')) ↔
      ¬ (component ≠ [] ∧ component ≠ ['.'] ∧ component ≠ ['.','.']) := by
  match component with
  | [] => simp
  | [a] => simp
  | [a,b] => simp
  | a::b::c::component => simp

/-- The scan in the middle of a component: what is left of it must complete safe components, the
first of which begins with what is behind `cp`. -/
theorem safeScan_iff (behind cp : List Char) (hslash : '/' ∉ behind) :
    safeScan (behind++cp) behind.length cp = true ↔ '\\' ∉ cp ∧ ':' ∉ cp ∧
      ∀ component ∈ (behind++cp).splitOn '/',
        component ≠ [] ∧ component ≠ ['.'] ∧ component ≠ ['.','.'] := by
  induction cp generalizing behind with
  | nil =>
    have hcheck := component_check behind []
    simp only [List.append_nil] at hcheck ⊢
    rw [safeScan, List.splitOn_eq_singleton hslash]
    simp only [hcheck, List.forall_mem_singleton]
    simp
  | cons c cp ih =>
    rw [safeScan]
    by_cases hbad : c = '\\' ∨ c = ':'
    · rw [if_pos hbad]
      rcases hbad with rfl | rfl <;> simp
    · obtain ⟨hback,hcolon⟩ := not_or.mp hbad
      rw [if_neg hbad]
      have hmem (x : Char) (hx : x = '\\' ∨ x = ':') : x ∉ c::cp ↔ x ∉ cp := by
        have : x ≠ c := fun h => hbad (h ▸ hx)
        simp [this]
      rw [hmem _ (Or.inl rfl), hmem _ (Or.inr rfl)]
      by_cases hsep : c = '/'
      · -- The component ends here, and the next one begins with nothing behind.
        subst hsep
        rw [if_neg (not_not.mpr rfl), List.splitOn_append_cons_self,
          List.splitOn_eq_singleton hslash, List.forall_mem_append, List.forall_mem_singleton]
        have hnext := ih [] List.not_mem_nil
        rw [List.nil_append, List.length_nil] at hnext
        have hcheck := component_check behind ('/'::cp)
        split
        · rename_i h
          have := hcheck.mp h
          simp [this]
        · rename_i h
          have := not_not.mp (mt hcheck.mpr h)
          rw [hnext]
          exact ⟨fun ⟨hb,hc,hall⟩ => ⟨hb,hc,this,hall⟩, fun ⟨hb,hc,_,hall⟩ => ⟨hb,hc,hall⟩⟩
      · -- The character belongs to the component.
        rw [if_pos hsep]
        have hnext := ih (behind++[c]) (by simpa [hslash] using fun h => hsep h.symm)
        rwa [List.append_assoc, List.singleton_append, List.length_append,
          List.length_singleton] at hnext

/-- `path_is_safe_relative` accepts exactly the safe paths, and an accepted path, resolved component
by component below any directory, never leaves it. -/
theorem path_safe_iff (path : List Char) :
    (pathIsSafeRelative (some path) = true ↔ SafeRelative path) ∧
    (pathIsSafeRelative (some path) = true → ∀ (base : List (List Char)) (n : ℕ),
      base <+: resolveFrom '.' base ((path.splitOn '/').take n)) := by
  have hscan := safeScan_iff [] path List.not_mem_nil
  rw [List.nil_append, List.length_nil] at hscan
  have hiff : pathIsSafeRelative (some path) = true ↔ SafeRelative path := by
    rw [pathIsSafeRelative]
    split
    · rename_i h
      refine ⟨fun h => absurd h (by simp), fun hsafe => ?_⟩
      rcases h with h | h | h
      · exact absurd h hsafe.nonempty
      · -- In front of a leading slash stands an empty component.
        obtain ⟨tail,rfl⟩ := List.head?_eq_some_iff.mp h
        exact absurd rfl (hsafe.components [] (by simp [List.splitOn_cons_eq_if_modifyHead])).1
      · exact absurd (List.mem_of_head? h) hsafe.backslash
    · rename_i h
      rw [hscan]
      exact ⟨fun ⟨hb,hc,hall⟩ => ⟨fun hn => h (Or.inl hn),hb,hc,hall⟩,
        fun hsafe => ⟨hsafe.backslash,hsafe.colon,hsafe.components⟩⟩
  refine ⟨hiff, fun haccepted base n => ?_⟩
  exact prefix_resolveFrom '.' (fun c hc => ((hiff.mp haccepted).components c hc).2.2) n

theorem path_safe_iff_nested : ∀ n, ["base".toList] <+:
    resolveFrom '.' ["base".toList] (("maps/shattered/world".toList.splitOn '/').take n) :=
  fun n => (path_safe_iff "maps/shattered/world".toList).2 (by decide) ["base".toList] n

end LibAtrinik.Path

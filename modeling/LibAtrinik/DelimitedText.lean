import Mathlib.Data.List.TakeWhile

namespace DelimitedText

variable {α : Type*}

/-- From `i` up to `j` the text holds no separator, and this cannot be made longer. -/
structure MaximalSegment (sep : α) (text : List α) (i j : ℕ) : Prop where
  nonempty : i < j
  inside : j ≤ text.length
  free : ∀ q, i ≤ q → q < j → text[q]? ≠ some sep
  left : i = 0 ∨ text[i-1]? = some sep
  right : j = text.length ∨ text[j]? = some sep

/-- The text from `i` up to `j`. -/
def slice (text : List α) (i j : ℕ) : List α := (text.drop i).take (j-i)

section Scan

variable (p : α → Bool) (text : List α) (start : ℕ)

/-- The first position from `start` on at which the scan stops. -/
def reach : ℕ := start+((text.drop start).takeWhile p).length

theorem le_reach : start ≤ reach p text start := Nat.le_add_right _ _

theorem reach_le_length (h : start ≤ text.length) : reach p text start ≤ text.length := by
  have hle := (List.takeWhile_sublist (l := text.drop start) p).length_le
  rw [List.length_drop] at hle
  rw [reach]
  omega

theorem takeWhile_eq_slice :
    (text.drop start).takeWhile p = slice text start (reach p text start) := by
  rw [slice, reach, Nat.add_sub_cancel_left]
  exact List.prefix_iff_eq_take.mp (List.takeWhile_prefix p)

/-- The text from where the scan stops. -/
theorem drop_reach : text.drop (reach p text start) = (text.drop start).dropWhile p :=
  calc text.drop (reach p text start)
      = ((text.drop start).takeWhile p ++ (text.drop start).dropWhile p).drop
          ((text.drop start).takeWhile p).length := by
        rw [List.takeWhile_append_dropWhile, List.drop_drop, reach]
    _ = (text.drop start).dropWhile p := List.drop_left

variable {p text start}

/-- Along the scan every character is passed. -/
theorem passed_of_lt_reach {q : ℕ} (hle : start ≤ q) (hlt : q < reach p text start) :
    ∃ c, text[q]? = some c ∧ p c = true := by
  have hq : q-start < ((text.drop start).takeWhile p).length := by
    rw [reach] at hlt
    omega
  refine ⟨_, ?_, List.mem_takeWhile_imp (List.getElem_mem hq)⟩
  calc text[q]? = (text.drop start)[q-start]? := by
        rw [List.getElem?_drop, Nat.add_sub_cancel' hle]
    _ = ((text.drop start).takeWhile p ++ (text.drop start).dropWhile p)[q-start]? := by
        rw [List.takeWhile_append_dropWhile]
    _ = some _ := by rw [List.getElem?_append_left hq, List.getElem?_eq_getElem hq]

/-- Where the scan stops, there is no character, or one that is not passed. -/
theorem not_passed_at_reach {c : α} (h : text[reach p text start]? = some c) : p c = false := by
  have hhead : ((text.drop start).dropWhile p).head? = some c :=
    calc ((text.drop start).dropWhile p).head?
        = ((text.drop start).takeWhile p ++ (text.drop start).dropWhile p)[
            ((text.drop start).takeWhile p).length]? := by
          rw [List.getElem?_append_right (Nat.le_refl _), Nat.sub_self, List.head?_eq_getElem?]
      _ = text[reach p text start]? := by
          rw [List.takeWhile_append_dropWhile, List.getElem?_drop, reach]
      _ = some c := h
  have hnot := List.head?_dropWhile_not p (text.drop start)
  rw [hhead] at hnot
  simpa using hnot

end Scan

variable {sep : α} {text : List α} {i j i' j' : ℕ}

/-- A segment does not start within separators. -/
theorem MaximalSegment.le_start {start : ℕ} (h : MaximalSegment sep text i j)
    (hskipped : ∀ q, start ≤ q → q < i' → text[q]? = some sep) (hstart : start ≤ i) : i' ≤ i := by
  by_contra hlt
  exact h.free i (Nat.le_refl i) h.nonempty (hskipped i hstart (by omega))

/-- Two segments are the same, or a separator stands between them. -/
theorem MaximalSegment.eq_or_lt (h : MaximalSegment sep text i j)
    (h' : MaximalSegment sep text i' j') (hle : i ≤ i') : (i' = i ∧ j' = j) ∨ j < i' := by
  by_cases hlt : j < i'
  · exact Or.inr hlt
  · left
    have hstart : i' = i := by
      by_contra hne
      rcases h'.left with hzero | hsep
      · omega
      · exact h.free (i'-1) (by omega) (by omega) hsep
    refine ⟨hstart, ?_⟩
    subst hstart
    have hinside := h.inside
    have hinside' := h'.inside
    rcases Nat.lt_trichotomy j' j with hj | hj | hj
    · rcases h'.right with hend | hsep
      · omega
      · exact absurd hsep (h.free j' h'.nonempty.le hj)
    · exact hj
    · rcases h.right with hend | hsep
      · omega
      · exact absurd hsep (h'.free j h.nonempty.le hj)

/-- No segment goes on from before the position. -/
def Fresh (sep : α) (text : List α) (start : ℕ) : Prop :=
  start = 0 ∨ text[start-1]? = some sep ∨ start = text.length

variable [DecidableEq α]

/-- The end of the separators from a position on. -/
def skip (sep : α) (text : List α) (start : ℕ) : ℕ := reach (fun c => c = sep) text start

/-- The end of what is no separator from a position on. -/
def word (sep : α) (text : List α) (start : ℕ) : ℕ := reach (fun c => c ≠ sep) text start

variable {start : ℕ}

theorem le_skip (sep : α) (text : List α) (start : ℕ) : start ≤ skip sep text start :=
  le_reach _ _ _

theorem skip_le_length (h : start ≤ text.length) : skip sep text start ≤ text.length :=
  reach_le_length _ _ _ h

theorem le_word (sep : α) (text : List α) (start : ℕ) : start ≤ word sep text start :=
  le_reach _ _ _

theorem word_le_length (h : start ≤ text.length) : word sep text start ≤ text.length :=
  reach_le_length _ _ _ h

theorem skipped {q : ℕ} (hle : start ≤ q) (hlt : q < skip sep text start) :
    text[q]? = some sep := by
  obtain ⟨c,hc,hsep⟩ := passed_of_lt_reach hle hlt
  rw [hc, of_decide_eq_true hsep]

theorem not_sep_at_skip : text[skip sep text start]? ≠ some sep := by
  intro h
  simpa using not_passed_at_reach h

theorem not_sep_in_word {q : ℕ} (hle : start ≤ q) (hlt : q < word sep text start) :
    text[q]? ≠ some sep := by
  obtain ⟨c,hc,hne⟩ := passed_of_lt_reach hle hlt
  rw [hc]
  simpa using hne

/-- A word ends with the text or before a separator. -/
theorem word_right (h : start ≤ text.length) :
    word sep text start = text.length ∨ text[word sep text start]? = some sep := by
  have hle : word sep text start ≤ text.length := reach_le_length _ text start h
  cases hc : text[word sep text start]? with
  | none => exact Or.inl (Nat.le_antisymm hle (List.getElem?_eq_none_iff.mp hc))
  | some c =>
    have hsep := not_passed_at_reach hc
    simp only [ne_eq, decide_not, Bool.not_eq_false', decide_eq_true_eq] at hsep
    exact Or.inr (by rw [hsep])

/-- After the separators behind a word no segment goes on. -/
theorem fresh_skip_word (h : start ≤ text.length) :
    Fresh sep text (skip sep text (word sep text start)) := by
  rcases Nat.eq_or_lt_of_le (le_skip sep text (word sep text start)) with heq | hlt
  · have hright : word sep text start = text.length ∨ text[word sep text start]? = some sep :=
      word_right h
    rcases heq ▸ hright with hend | hsep
    · exact Or.inr (Or.inr hend)
    · exact absurd hsep not_sep_at_skip
  · have hlast : skip sep text (word sep text start)-1 < skip sep text (word sep text start) := by
      omega
    exact Or.inr (Or.inl (skipped (Nat.le_sub_one_of_lt hlt) hlast))

/-- A word behind separators is a maximal segment. -/
theorem maximalSegment_word (hfresh : Fresh sep text start) (hlength : start ≤ text.length)
    (hword : skip sep text start < word sep text (skip sep text start)) :
    MaximalSegment sep text (skip sep text start) (word sep text (skip sep text start)) where
  nonempty := hword
  inside := word_le_length (skip_le_length hlength)
  free _ hle hlt := not_sep_in_word hle hlt
  left := by
    rcases Nat.eq_or_lt_of_le (le_skip sep text start) with heq | hlt
    · rcases hfresh with hzero | hsep | hend
      · exact Or.inl (heq ▸ hzero)
      · exact Or.inr (heq ▸ hsep)
      · have hinside : word sep text (skip sep text start) ≤ text.length :=
          word_le_length (skip_le_length hlength)
        omega
    · have hlast : skip sep text start-1 < skip sep text start := by omega
      exact Or.inr (skipped (Nat.le_sub_one_of_lt hlt) hlast)
  right := word_right (skip_le_length hlength)

/-- Without a word behind the separators the text is at its end. -/
theorem skip_eq_length (hlength : start ≤ text.length)
    (hword : word sep text (skip sep text start) = skip sep text start) :
    skip sep text start = text.length := by
  have hright : word sep text (skip sep text start) = text.length ∨
      text[word sep text (skip sep text start)]? = some sep := word_right (skip_le_length hlength)
  rcases hword ▸ hright with hend | hsep
  · exact hend
  · exact absurd hsep not_sep_at_skip

end DelimitedText

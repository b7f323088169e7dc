import LibAtrinik.DelimitedText
import LibAtrinik.Path

namespace LibAtrinik.Path

open DelimitedText

theorem skipDelim_takeWhile (delim : Char) (str : List Char) (pos : ℕ) :
    skipDelim delim str pos =
      (str.drop (str.takeWhile fun c => c = delim).length,
        pos+(str.takeWhile fun c => c = delim).length) := by
  induction str generalizing pos with
  | nil => rfl
  | cons c str ih =>
    by_cases hc : c = delim
    · rw [skipDelim, if_pos hc, ih, List.takeWhile_cons_of_pos (by simpa using hc),
        List.length_cons, List.drop_succ_cons, Nat.add_assoc, Nat.add_comm 1]
    · rw [skipDelim, if_neg hc, List.takeWhile_cons_of_neg (by simpa using hc)]
      rfl

/-- Without a surrounding character the word ends before the next delimiter. -/
theorem readWord_takeWhile (delim : Char) (wordsize : ℕ) (str : List Char) (pos : ℕ)
    (word : List Char) (hword : word.length ≤ wordsize-1) :
    readWord delim wordsize none str pos false word =
      (str.drop (str.takeWhile fun c => c ≠ delim).length,
        pos+(str.takeWhile fun c => c ≠ delim).length,
        (word ++ str.takeWhile fun c => c ≠ delim).take (wordsize-1)) := by
  induction str generalizing pos word with
  | nil =>
    rw [readWord, List.takeWhile_nil, List.append_nil, List.take_of_length_le hword]
    rfl
  | cons c str ih =>
    by_cases hc : c = delim
    · rw [readWord, if_neg (by simp [hc]), List.takeWhile_cons_of_neg (by simp [hc]),
        List.append_nil, List.take_of_length_le hword]
      rfl
    · have hcount : pos+((str.takeWhile fun c => c ≠ delim).length+1) =
          pos+1+(str.takeWhile fun c => c ≠ delim).length := by omega
      rw [readWord, if_pos (Or.inl hc), if_neg (by simp),
        List.takeWhile_cons_of_pos (by simpa using hc), List.length_cons, List.drop_succ_cons,
        hcount]
      split
      · -- There is room for the character.
        rename_i hroom
        rw [ih (pos+1) (word++[c]) (by simp; omega), List.append_assoc, List.singleton_append]
      · -- The word is full, and stays as it is.
        rename_i hfull
        have hlength : wordsize-1 ≤ word.length := by omega
        rw [ih (pos+1) word hword, List.take_append_of_le_length hlength,
          List.take_append_of_le_length hlength]

theorem skipDelim_scan (delim : Char) (str : List Char) (pos : ℕ) :
    skipDelim delim (str.drop pos) pos = (str.drop (skip delim str pos), skip delim str pos) := by
  rw [skipDelim_takeWhile, List.drop_drop]
  rfl

theorem readWord_scan (delim : Char) (wordsize : ℕ) (str : List Char) (pos : ℕ) :
    readWord delim wordsize none (str.drop pos) pos false [] =
      (str.drop (word delim str pos), word delim str pos,
        (slice str pos (word delim str pos)).take (wordsize-1)) := by
  rw [readWord_takeWhile _ _ _ _ _ (Nat.zero_le _), List.drop_drop, List.nil_append]
  refine Prod.ext rfl (Prod.ext rfl ?_)
  exact congrArg (List.take (wordsize-1)) (takeWhile_eq_slice _ _ _)

/-- A call without a surrounding character skips delimiters, takes a word, as far as there is room
for it, and skips the delimiters behind it. -/
theorem stringGetWord_scan (str : List Char) (pos : ℕ) (delim : Char) (wordsize : ℕ) :
    stringGetWord (some str) pos delim wordsize none =
      let i := skip delim str pos
      let j := word delim str i
      (if (slice str i j).take (wordsize-1) = [] then none
        else some ((slice str i j).take (wordsize-1)), skip delim str j) := by
  simp only [stringGetWord, skipDelim_scan, readWord_scan]

/-- A call of the iteration, which ends when there is no word. The words are kept, each with the
position that its call left. -/
def wordRound (str : List Char) (delim : Char) (wordsize : ℕ)
    (s : ℕ × List (List Char × ℕ)) : (ℕ × List (List Char × ℕ)) ⊕ (ℕ × List (List Char × ℕ)) :=
  match stringGetWord (some str) s.1 delim wordsize none with
  | (some word, pos) => .inl (pos, s.2 ++ [(word, pos)])
  | (none, pos) => .inr (pos, s.2)

/-- `string_get_word` from the position zero on until it returns no word: the position then, and
the words before. -/
def iterateWords (fuel : ℕ) (str : List Char) (delim : Char) (wordsize : ℕ) :
    Option (ℕ × List (List Char × ℕ)) :=
  FuelLoop.run (wordRound str delim wordsize) fuel (0, [])

variable {str : List Char} {delim : Char} {wordsize pos : ℕ}

/-- A call that finds a word leaves the position behind it. -/
theorem wordRound_word (hsize : 2 ≤ wordsize)
    (hword : skip delim str pos < word delim str (skip delim str pos))
    (hpos : pos ≤ str.length) (words : List (List Char × ℕ)) :
    wordRound str delim wordsize (pos, words) =
      .inl (skip delim str (word delim str (skip delim str pos)),
        words ++ [((slice str (skip delim str pos) (word delim str (skip delim str pos))).take
          (wordsize-1), skip delim str (word delim str (skip delim str pos)))]) := by
  have hinside : word delim str (skip delim str pos) ≤ str.length :=
    word_le_length (skip_le_length hpos)
  have hne : (slice str (skip delim str pos) (word delim str (skip delim str pos))).take
      (wordsize-1) ≠ [] := by
    apply List.ne_nil_of_length_pos
    rw [slice, List.length_take, List.length_take, List.length_drop]
    omega
  simp only [wordRound, stringGetWord_scan, if_neg hne]

/-- A call that finds none is at the end of the string. -/
theorem wordRound_end (hword : word delim str (skip delim str pos) = skip delim str pos)
    (hpos : pos ≤ str.length) (words : List (List Char × ℕ)) :
    wordRound str delim wordsize (pos, words) = .inr (str.length, words) := by
  have hend : skip delim str pos = str.length := skip_eq_length hpos hword
  have hlast : skip delim str str.length = str.length :=
    Nat.le_antisymm (skip_le_length (Nat.le_refl _)) (le_skip _ _ _)
  have hnil : (slice str str.length str.length).take (wordsize-1) = [] := by
    rw [slice, Nat.sub_self, List.take_zero, List.take_nil]
  rw [hend] at hword
  simp only [wordRound, stringGetWord_scan, hend, hword, hnil, if_true, hlast]

/-- What the calls from a position on find: the segments from there on, in their order. -/
structure Finds (str : List Char) (delim : Char) (wordsize pos : ℕ) (segments : List (ℕ × ℕ))
    (found : List (List Char × ℕ)) : Prop where
  ordered : segments.Pairwise fun a b => a.2 < b.1
  mem_iff : ∀ i j, (i, j) ∈ segments ↔ MaximalSegment delim str i j ∧ pos ≤ i
  words : found.map Prod.fst = segments.map fun a => (slice str a.1 a.2).take (wordsize-1)
  inside : ∀ call ∈ found, call.2 ≤ str.length

theorem Finds.nil (hend : skip delim str pos = str.length) :
    Finds str delim wordsize pos [] [] where
  ordered := List.Pairwise.nil
  mem_iff i j := by
    refine ⟨fun h => absurd h List.not_mem_nil, ?_⟩
    intro ⟨hsegment,hpos⟩
    have hstart := hsegment.le_start (fun _ => skipped) hpos
    have hnonempty := hsegment.nonempty
    have hinside := hsegment.inside
    omega
  words := rfl
  inside _ h := absurd h List.not_mem_nil

/-- The segment that a call finds is the first one. -/
theorem Finds.cons {segments : List (ℕ × ℕ)} {found : List (List Char × ℕ)}
    (hfresh : Fresh delim str pos) (hpos : pos ≤ str.length)
    (hword : skip delim str pos < word delim str (skip delim str pos))
    (h : Finds str delim wordsize (skip delim str (word delim str (skip delim str pos)))
      segments found) :
    Finds str delim wordsize pos
      ((skip delim str pos, word delim str (skip delim str pos))::segments)
      (((slice str (skip delim str pos) (word delim str (skip delim str pos))).take (wordsize-1),
        skip delim str (word delim str (skip delim str pos)))::found) := by
  have hfirst := maximalSegment_word hfresh hpos hword
  have hnext : word delim str (skip delim str pos) ≤
      skip delim str (word delim str (skip delim str pos)) := le_skip _ _ _
  refine ⟨List.pairwise_cons.mpr ⟨?_, h.ordered⟩, ?_, ?_, ?_⟩
  · -- A later segment does not touch the first one.
    intro a ha
    obtain ⟨hsegment,hstart⟩ := (h.mem_iff a.1 a.2).mp ha
    rcases hfirst.eq_or_lt hsegment (by omega) with ⟨hsame,_⟩ | hlt
    · omega
    · exact hlt
  · intro i j
    rw [List.mem_cons, h.mem_iff, Prod.mk.injEq]
    constructor
    · rintro (⟨rfl,rfl⟩ | ⟨hsegment,hstart⟩)
      · exact ⟨hfirst, le_skip _ _ _⟩
      · exact ⟨hsegment, by have := le_skip delim str pos; omega⟩
    · intro ⟨hsegment,hstart⟩
      have hskip := hsegment.le_start (fun _ => skipped) hstart
      rcases hfirst.eq_or_lt hsegment hskip with hsame | hlt
      · exact Or.inl hsame
      · exact Or.inr ⟨hsegment, hsegment.le_start (fun _ => skipped) hlt.le⟩
  · rw [List.map_cons, List.map_cons, h.words]
  · intro call hcall
    rcases List.mem_cons.mp hcall with rfl | hcall
    · exact skip_le_length (word_le_length (skip_le_length hpos))
    · exact h.inside call hcall

/-- The calls from a position on, by induction on what is left of the string. -/
theorem iterate_from (hsize : 2 ≤ wordsize) (left : ℕ) (pos : ℕ) (hleft : str.length-pos = left)
    (hpos : pos ≤ str.length) (hfresh : Fresh delim str pos) (words : List (List Char × ℕ)) :
    ∃ fuel segments found,
      FuelLoop.run (wordRound str delim wordsize) fuel (pos, words) =
        some (str.length, words++found) ∧
      Finds str delim wordsize pos segments found := by
  induction left using Nat.strong_induction_on generalizing pos words with
  | _ left ih =>
    rcases Nat.eq_or_lt_of_le (le_word delim str (skip delim str pos)) with hword | hword
    · refine ⟨1, [], [], ?_, Finds.nil (skip_eq_length hpos hword.symm)⟩
      rw [FuelLoop.run_leave _ _ _ _ (wordRound_end hword.symm hpos words), List.append_nil]
    · have hskip := le_skip delim str pos
      have hnext := le_skip delim str (word delim str (skip delim str pos))
      have hinside : skip delim str (word delim str (skip delim str pos)) ≤ str.length :=
        skip_le_length (word_le_length (skip_le_length hpos))
      obtain ⟨fuel,segments,found,hrun,hfinds⟩ := ih _ (by omega) _ rfl hinside
        (fresh_skip_word (skip_le_length hpos)) _
      refine ⟨fuel+1, _, _, ?_, hfinds.cons hfresh hpos hword⟩
      rw [FuelLoop.run_continue _ _ _ _ (wordRound_word hsize hword hpos words), hrun,
        List.append_assoc, List.singleton_append]

/-- The iteration ends at the end of the string, after it has found exactly the segments between
the delimiters, each cut off where there is no room for more of it. -/
theorem iterateWords_segments (str : List Char) (delim : Char) (wordsize : ℕ)
    (hsize : 2 ≤ wordsize) :
    ∃ fuel, ∃ segments : List (ℕ × ℕ), ∃ found,
      iterateWords fuel str delim wordsize = some (str.length, found) ∧
      (segments.Pairwise fun a b => a.2 < b.1) ∧
      (∀ i j, (i, j) ∈ segments ↔ MaximalSegment delim str i j) ∧
      found.map Prod.fst = (segments.map fun a => (slice str a.1 a.2).take (wordsize-1)) ∧
      ∀ call ∈ found, call.2 ≤ str.length := by
  obtain ⟨fuel,segments,found,hrun,hfinds⟩ :=
    iterate_from hsize _ 0 rfl (Nat.zero_le _) (Or.inl rfl) []
  refine ⟨fuel, segments, found, hrun, hfinds.ordered, ?_, hfinds.words, hfinds.inside⟩
  intro i j
  rw [hfinds.mem_iff, and_iff_left (Nat.zero_le i)]

/-- The words of a path with an empty segment. -/
theorem iterateWords_segments_path :
    2 ≤ 4 ∧ ∃ fuel, ∃ segments : List (ℕ × ℕ), ∃ found,
      iterateWords fuel ['/', 'a', '/', '/', 'b', 'c', 'd', 'e', '/'] '/' 4 = some (9, found) ∧
      (segments.Pairwise fun a b => a.2 < b.1) ∧
      (∀ i j, (i, j) ∈ segments ↔
        MaximalSegment '/' ['/', 'a', '/', '/', 'b', 'c', 'd', 'e', '/'] i j) ∧
      (found.map Prod.fst = segments.map fun a =>
        (slice ['/', 'a', '/', '/', 'b', 'c', 'd', 'e', '/'] a.1 a.2).take (4-1)) ∧
      ∀ call ∈ found, call.2 ≤ 9 :=
  ⟨by decide, iterateWords_segments ['/', 'a', '/', '/', 'b', 'c', 'd', 'e', '/'] '/' 4 (by decide)⟩

end LibAtrinik.Path

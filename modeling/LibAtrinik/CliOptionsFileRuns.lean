import LibAtrinik.CliOptionsFile

namespace LibAtrinik.CliOptions

open LiveHeap Rendezvous ScanFormat BufferedLines

def cleanLine (line : List Char) : List Char := (line.takeWhile (· ≠ '\x00')).dropWhile isSpace

theorem cleanLine_free {line : List Char} (h : '\n' ∉ line) : '\n' ∉ cleanLine line := fun hmem =>
  h ((List.takeWhile_sublist _).mem ((List.dropWhile_sublist _).mem hmem))

/-- The end of the line makes no difference. -/
theorem stripLine_eq {t buf : List Char} (ht : '\n' ∉ t) (hbuf : buf = t ∨ buf = t ++ ['\n']) :
    stripLine buf = cleanLine t := by
  have hwhole : (cleanLine t).takeWhile (· ≠ '\n') = cleanLine t := takeWhile_ne (cleanLine_free ht)
  rcases hbuf with rfl | rfl
  · exact hwhole
  · rw [stripLine, List.takeWhile_append]
    split
    · -- No null character stands before the end of the line.
      rename_i hall
      have hself : t.takeWhile (· ≠ '\x00') = t := (List.takeWhile_prefix _).eq_of_length hall
      have hclean : cleanLine t = t.dropWhile isSpace := by rw [cleanLine, hself]
      rw [List.takeWhile_cons_of_pos (by decide), List.takeWhile_nil, List.dropWhile_append,
        ← hclean]
      split
      · rename_i hempty
        rw [ List.isEmpty_iff.mp hempty]
        rfl
      · exact takeWhile_ne_append (cleanLine_free ht) []
    · exact hwhole

theorem isHeader_eq {line : List Char} (h : line ≠ []) :
    (Path.stringStartswith line ['['] && stringEndswith line [']']) = isHeader line := by
  have hstart : Path.stringStartswith line ['['] = decide (line.head? = some '[') := by
    cases line with
    | nil => exact absurd rfl h
    | cons c line =>
      have hbegins : ['['].isPrefixOf (c::line) = decide (c = '[') := by
        rw [List.isPrefixOf, List.isPrefixOf, Bool.and_true]
        exact decide_eq_decide.mpr eq_comm
      simp [Path.stringStartswith, Path.stringIsempty, hbegins]
  have hend : stringEndswith line [']'] = decide (line.getLast? = some ']') := by
    obtain ⟨front, c, rfl⟩ := (List.eq_nil_or_concat line).resolve_left h
    simp [stringEndswith]
  rw [hstart, hend, isHeader]
  exact (Bool.decide_and _ _).symm

theorem sectionAfter_concat (before : List (List Char)) (line : List Char) :
    sectionAfter (before ++ [line]) = if isHeader line then line else sectionAfter before := by
  rw [sectionAfter, List.filter_append]
  by_cases h : isHeader line = true
  · rw [if_pos h, List.filter_cons_of_pos h]
    simp
  · rw [if_neg h, List.filter_cons_of_neg h]
    simp [sectionAfter]

/-- The lines that are chosen depend on the lines before only by their section. -/
theorem chosenAfter_congr (category : Option (List Char)) {before before' : List (List Char)}
    (h : sectionAfter before = sectionAfter before') (lines : List (List Char)) :
    chosenAfter category before lines = chosenAfter category before' lines := by
  induction lines generalizing before before' with
  | nil => rfl
  | cons line lines ih =>
    have hnext : sectionAfter (before ++ [line]) = sectionAfter (before' ++ [line]) := by
      rw [sectionAfter_concat, sectionAfter_concat, h]
    rw [chosenAfter, chosenAfter, chosen, chosen, h, ih hnext]

/-- Empty lines may be left out. -/
theorem chosenAfter_filter (category : Option (List Char)) (before texts : List (List Char)) :
    chosenAfter category before ((texts.filter (· ≠ [])).map cleanLine) =
      chosenAfter category before (texts.map cleanLine) := by
  induction texts generalizing before with
  | nil => rfl
  | cons text texts ih =>
    by_cases h : text = []
    · have hsame : sectionAfter (before ++ [cleanLine []]) = sectionAfter before :=
        sectionAfter_concat before []
      rw [List.filter_cons_of_neg (by simpa using h), ih, h, List.map_cons, chosenAfter,
        if_neg (by simp [chosen, isComment, cleanLine]), chosenAfter_congr category hsame]
    · rw [List.filter_cons_of_pos (by simpa using h), List.map_cons, List.map_cons, chosenAfter,
        chosenAfter, ih]

section Lines

variable {H : Type} (p : Platform Call) (call : Caller H)

def loadAll : List (List Char) → CliOf H Unit
  | [] => pure ()
  | line::lines => do
    loadOnly p call line
    loadAll lines

/-- A round loads the line if it is chosen, and the section is again that after the lines. -/
theorem loadLine_eq (category : Option (List Char)) (before : List (List Char)) {buf : List Char}
    (hfits : (stripLine buf).length < hugeBuf) :
    loadLine p call category (sectionAfter before) buf =
      (if chosen category before (stripLine buf) then loadOnly p call (stripLine buf)
        else pure ()) >>= fun _ => pure (sectionAfter (before ++ [stripLine buf])) := by
  rw [loadLine]
  generalize stripLine buf = line at hfits
  rw [sectionAfter_concat, chosen]
  by_cases hcomment : line.head? = some '#' ∨ line = []
  · -- A comment is no title, so that the section stays.
    have hheader : isHeader line = false := by
      rcases hcomment with h | rfl
      · simp [isHeader, h]
      · rfl
    rw [if_pos hcomment, if_neg (by simp [isComment, hcomment.symm]), hheader]
    rfl
  · have hne : line ≠ [] := fun h => hcomment (Or.inr h)
    have hplain : isComment line = false := by
      simpa [isComment] using ⟨hne, fun h => hcomment (Or.inl h)⟩
    rw [if_neg hcomment, isHeader_eq hne, hplain]
    cases hheader : isHeader line with
    | true =>
      -- The title is copied into a buffer of the same size, so that it is whole.
      have hwhole : snprintf hugeBuf line = line :=
        List.take_of_length_le (Nat.le_sub_one_of_lt hfits)
      simp [hwhole]
    | false =>
      simp only [Bool.not_false, Bool.true_and, Bool.false_eq_true, if_false]
      split
      · simp only [loadOnly, bind_assoc, pure_bind]
      · simp only [pure_bind]

def loadBufs (category : Option (List Char)) : List Char → List (List Char) → CliOf H Unit
  | _, [] => pure ()
  | categoryCur, buf::bufs => do
    let categoryCur ← loadLine p call category categoryCur buf
    loadBufs category categoryCur bufs

theorem loadLoop_eq (category : Option (List Char)) (fuel : ℕ) (categoryCur fp : List Char) :
    loadLoop p call category fuel categoryCur fp =
      loadBufs p call category categoryCur (readPieces '\n' (hugeBuf-1) fuel fp) := by
  induction fuel generalizing categoryCur fp with
  | zero => rfl
  | succ fuel ih =>
    rw [loadLoop, readPieces, fgets]
    dsimp only
    split
    · rfl
    · simp only [loadBufs, ih]

/-- The rounds load the chosen lines. -/
theorem loadBufs_eq (category : Option (List Char)) (before bufs : List (List Char))
    (hfits : ∀ buf ∈ bufs, (stripLine buf).length < hugeBuf) :
    loadBufs p call category (sectionAfter before) bufs =
      loadAll p call (chosenAfter category before (bufs.map stripLine)) := by
  induction bufs generalizing before with
  | nil => rfl
  | cons buf bufs ih =>
    rw [loadBufs, loadLine_eq p call category before (hfits buf List.mem_cons_self), bind_assoc]
    simp only [pure_bind, ih _ fun buf hbuf => hfits buf (List.mem_cons_of_mem _ hbuf)]
    rw [List.map_cons, chosenAfter]
    split
    · rfl
    · rw [pure_bind]

/-- The loop over a file loads its chosen lines. -/
theorem loadLoop_file (category : Option (List Char)) (file : List Char) :
    loadLoop p call category file.length [] file =
      loadAll p call (chosenAfter category [] (fileLines file)) := by
  have hpieces (buf : List Char) (hbuf : buf ∈ readPieces '\n' (hugeBuf-1) file.length file) :
      stripLine buf = cleanLine (buf.takeWhile (· ≠ '\n')) ∧ (stripLine buf).length < hugeBuf := by
    obtain ⟨hlength, t, ht, hcases⟩ := mem_readPieces hbuf
    have htext : buf.takeWhile (· ≠ '\n') = t := by
      rcases hcases with rfl | rfl
      · exact takeWhile_ne ht
      · exact takeWhile_ne_append ht []
    refine ⟨by rw [stripLine_eq ht hcases, htext], ?_⟩
    have hle : (stripLine buf).length ≤ buf.length :=
      ((List.takeWhile_sublist _).trans ((List.dropWhile_sublist _).trans
        (List.takeWhile_sublist _))).length_le
    rw [hugeBuf] at hlength ⊢
    omega
  have hlines : (readPieces '\n' (hugeBuf-1) file.length file).map stripLine =
      ((readPieces '\n' (hugeBuf-1) file.length file).map
        fun buf => buf.takeWhile (· ≠ '\n')).map cleanLine := by
    rw [List.map_map]
    exact List.map_congr_left fun buf hbuf => (hpieces buf hbuf).1
  have hclean : fileLines file = (cutLines '\n' (hugeBuf-1) file).map cleanLine := rfl
  rw [loadLoop_eq, show ([] : List Char) = sectionAfter [] from rfl,
    loadBufs_eq p call category [] _ fun buf hbuf => (hpieces buf hbuf).2, hlines,
    ← chosenAfter_filter, hclean, ← texts_readPieces (by decide) file.length file (Nat.le_refl _)]
  rfl

end Lines

end LibAtrinik.CliOptions

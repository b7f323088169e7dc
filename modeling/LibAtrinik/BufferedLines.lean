import Mathlib.Data.List.Basic

/-! Reading a text through a buffer: up to a number of characters at a time, and none behind the end
of a line. The pieces are those of the lines, each of which is cut where the buffer is full. -/
namespace BufferedLines

variable {α : Type*} {sep : α} {n : ℕ} {line rest : List α}

/-- A line in pieces of `n` characters, with at most `fuel` pieces. -/
def cutInto (n : ℕ) : ℕ → List α → List (List α)
  | 0, _ => []
  | fuel+1, line => if line = [] then [] else line.take n :: cutInto n fuel (line.drop n)

def cut (n : ℕ) (line : List α) : List (List α) := cutInto n line.length line

/-- More fuel than there are characters changes nothing. -/
theorem cutInto_fuel (hn : 0 < n) {fuel fuel' : ℕ} (h : line.length ≤ fuel)
    (h' : line.length ≤ fuel') : cutInto n fuel line = cutInto n fuel' line := by
  induction fuel generalizing fuel' line with
  | zero =>
    rw [List.length_eq_zero_iff.mp (Nat.le_zero.mp h)]
    cases fuel' <;> rfl
  | succ fuel ih =>
    cases line with
    | nil => cases fuel' <;> rfl
    | cons c line =>
      cases fuel' with
      | zero => cases h'
      | succ fuel' =>
        have hdrop : ((c::line).drop n).length ≤ line.length := by
          rw [List.length_drop, List.length_cons]
          omega
        rw [List.length_cons] at h h'
        have hnext : cutInto n fuel ((c::line).drop n) = cutInto n fuel' ((c::line).drop n) :=
          ih (by omega) (by omega)
        rw [cutInto, cutInto, hnext]

theorem cut_nil (n : ℕ) : cut n ([] : List α) = [] := rfl

theorem cut_of_ne_nil (hn : 0 < n) (h : line ≠ []) :
    cut n line = line.take n :: cut n (line.drop n) := by
  obtain ⟨c, line, rfl⟩ := List.exists_cons_of_ne_nil h
  have hdrop : ((c::line).drop n).length ≤ line.length := by
    rw [List.length_drop, List.length_cons]
    omega
  rw [cut, cut, List.length_cons, cutInto, if_neg h, cutInto_fuel hn hdrop (Nat.le_refl _)]

/-- A line that fits is not cut. -/
theorem cut_of_le (hn : line.length ≤ n) (h : line ≠ []) : cut n line = [line] := by
  have hpos : 0 < n := Nat.lt_of_lt_of_le (List.length_pos_of_ne_nil h) hn
  rw [cut_of_ne_nil hpos h, List.take_of_length_le hn, List.drop_of_length_le hn, cut_nil]

variable [DecidableEq α]

/-- Up to `n` characters, and none behind a separator; and what is left. -/
def readPiece (sep : α) : ℕ → List α → List α × List α
  | 0, text => ([], text)
  | _+1, [] => ([], [])
  | n+1, c::text =>
    if c = sep then ([c], text) else (c::(readPiece sep n text).1, (readPiece sep n text).2)

/-- The pieces up to the end of the text, at most `fuel` of them. -/
def readPieces (sep : α) (n : ℕ) : ℕ → List α → List (List α)
  | 0, _ => []
  | fuel+1, text =>
    if (readPiece sep n text).1 = [] then []
    else (readPiece sep n text).1 :: readPieces sep n fuel (readPiece sep n text).2

theorem readPiece_full (h : sep ∉ line) (hn : n ≤ line.length) :
    readPiece sep n (line ++ rest) = (line.take n, line.drop n ++ rest) := by
  induction line generalizing n with
  | nil =>
    rw [List.length_nil, Nat.le_zero] at hn
    rw [hn]
    rfl
  | cons c line ih =>
    obtain ⟨hc, hline⟩ : sep ≠ c ∧ sep ∉ line := by simpa using h
    cases n with
    | zero => rfl
    | succ n =>
      rw [List.cons_append, readPiece, if_neg (Ne.symm hc), ih hline (by simpa using hn)]
      rfl

theorem readPiece_line (h : sep ∉ line) (hn : line.length < n) :
    readPiece sep n (line ++ sep::rest) = (line ++ [sep], rest) := by
  induction line generalizing n with
  | nil =>
    obtain ⟨n, rfl⟩ := Nat.exists_eq_succ_of_ne_zero (Nat.ne_of_gt hn)
    exact if_pos rfl
  | cons c line ih =>
    obtain ⟨hc, hline⟩ : sep ≠ c ∧ sep ∉ line := by simpa using h
    obtain ⟨n, rfl⟩ := Nat.exists_eq_succ_of_ne_zero (Nat.ne_of_gt (Nat.zero_lt_of_lt hn))
    rw [List.cons_append, readPiece, if_neg (Ne.symm hc), ih hline (by simpa using hn)]
    rfl

theorem readPiece_last (h : sep ∉ line) (hn : line.length < n) :
    readPiece sep n line = (line, []) := by
  induction line generalizing n with
  | nil =>
    obtain ⟨n, rfl⟩ := Nat.exists_eq_succ_of_ne_zero (Nat.ne_of_gt hn)
    rfl
  | cons c line ih =>
    obtain ⟨hc, hline⟩ : sep ≠ c ∧ sep ∉ line := by simpa using h
    obtain ⟨n, rfl⟩ := Nat.exists_eq_succ_of_ne_zero (Nat.ne_of_gt (Nat.zero_lt_of_lt hn))
    rw [readPiece, if_neg (Ne.symm hc), ih hline (by simpa using hn)]

/-- A piece is a text without separators, with one behind it or not. -/
theorem readPiece_cases (sep : α) (n : ℕ) (text : List α) : ∃ t : List α, sep ∉ t ∧
    ((readPiece sep n text).1 = t ∨ (readPiece sep n text).1 = t ++ [sep]) := by
  induction n generalizing text with
  | zero => exact ⟨[], List.not_mem_nil, Or.inl rfl⟩
  | succ n ih =>
    cases text with
    | nil => exact ⟨[], List.not_mem_nil, Or.inl rfl⟩
    | cons c text =>
      rw [readPiece]
      by_cases hc : c = sep
      · exact ⟨[], List.not_mem_nil, Or.inr (by rw [if_pos hc, hc, List.nil_append])⟩
      · obtain ⟨t, ht, hpiece⟩ := ih text
        rw [if_neg hc]
        refine ⟨c::t, by simpa using ⟨Ne.symm hc, ht⟩, ?_⟩
        rcases hpiece with hpiece | hpiece
        · exact Or.inl (by rw [hpiece])
        · exact Or.inr (by rw [hpiece, List.cons_append])

theorem length_readPiece (sep : α) (n : ℕ) (text : List α) :
    (readPiece sep n text).1.length ≤ n := by
  induction n generalizing text with
  | zero => exact Nat.le_refl 0
  | succ n ih =>
    cases text with
    | nil => exact Nat.zero_le _
    | cons c text =>
      rw [readPiece]
      split
      · exact Nat.succ_le_succ (Nat.zero_le n)
      · exact Nat.succ_le_succ (ih text)

theorem mem_readPieces {fuel : ℕ} {text piece : List α} (h : piece ∈ readPieces sep n fuel text) :
    piece.length ≤ n ∧ ∃ t : List α, sep ∉ t ∧ (piece = t ∨ piece = t ++ [sep]) := by
  induction fuel generalizing text with
  | zero => cases h
  | succ fuel ih =>
    rw [readPieces] at h
    split at h
    · cases h
    · rcases List.mem_cons.mp h with rfl | hmem
      · exact ⟨length_readPiece sep n text, readPiece_cases sep n text⟩
      · exact ih hmem

/-- The texts of the pieces, those that are empty left out. -/
def texts (sep : α) (pieces : List (List α)) : List (List α) :=
  (pieces.map fun piece => piece.takeWhile (· ≠ sep)).filter (· ≠ [])

theorem takeWhile_ne (h : sep ∉ line) : line.takeWhile (· ≠ sep) = line := by
  have hfree : ∀ c ∈ line, decide (c ≠ sep) = true := by
    intro c hc
    exact decide_eq_true fun heq => h (heq ▸ hc)
  have hall : (line ++ []).takeWhile (· ≠ sep) = line ++ [].takeWhile (· ≠ sep) :=
    List.takeWhile_append_of_pos hfree
  simpa using hall

theorem takeWhile_ne_append (h : sep ∉ line) (rest : List α) :
    (line ++ sep::rest).takeWhile (· ≠ sep) = line := by
  rw [List.takeWhile_append_of_pos, List.takeWhile_cons_of_neg (by simp), List.append_nil]
  intro c hc
  exact decide_eq_true fun heq => h (heq ▸ hc)

/-- A piece with some text, and those behind it. -/
theorem texts_cons {piece : List α} (pieces : List (List α)) {t : List α} (ht : t ≠ [])
    (h : piece.takeWhile (· ≠ sep) = t) : texts sep (piece::pieces) = t :: texts sep pieces := by
  rw [texts, List.map_cons, h, List.filter_cons_of_pos (by simpa using ht), texts]

theorem texts_line (h : sep ∉ line) (hn : line.length ≤ n) (pieces : List (List α)) :
    texts sep ((line ++ [sep])::pieces) = cut n line ++ texts sep pieces := by
  have htext := takeWhile_ne_append h []
  by_cases hline : line = []
  · rw [texts, List.map_cons, htext, List.filter_cons_of_neg (by simpa using hline), hline, cut_nil,
      List.nil_append, texts]
  · rw [texts_cons pieces hline htext, cut_of_le hn hline, List.singleton_append]

/-- The lines of a text, cut into pieces. -/
def cutLines (sep : α) (n : ℕ) (text : List α) : List (List α) :=
  (text.splitOn sep).flatMap (cut n)

theorem cutLines_last (h : sep ∉ line) : cutLines sep n line = cut n line := by
  rw [cutLines, List.splitOn_eq_singleton h, List.flatMap_singleton]

theorem cutLines_line (h : sep ∉ line) (rest : List α) :
    cutLines sep n (line ++ sep::rest) = cut n line ++ cutLines sep n rest := by
  rw [cutLines, List.splitOn_append_cons_self_of_not_mem h, List.flatMap_cons, cutLines]

/-- Cutting off a full piece of the first line. -/
theorem cutLines_full (h : sep ∉ line) (hn : 0 < n) (hline : n ≤ line.length)
    (hrest : rest = [] ∨ ∃ next, rest = sep::next) :
    cutLines sep n (line ++ rest) = line.take n :: cutLines sep n (line.drop n ++ rest) := by
  have hdrop : sep ∉ line.drop n := fun hmem => h (List.mem_of_mem_drop hmem)
  have hne : line ≠ [] := List.ne_nil_of_length_pos (Nat.lt_of_lt_of_le hn hline)
  rcases hrest with rfl | ⟨next, rfl⟩
  · rw [List.append_nil, List.append_nil, cutLines_last h, cutLines_last hdrop,
      cut_of_ne_nil hn hne]
  · rw [cutLines_line h, cutLines_line hdrop, cut_of_ne_nil hn hne, List.cons_append]

/-- What is read piece by piece are the lines, each of them cut where the buffer is full. -/
theorem texts_readPieces (hn : 0 < n) (fuel : ℕ) (text : List α) (h : text.length ≤ fuel) :
    texts sep (readPieces sep n fuel text) = cutLines sep n text := by
  induction fuel generalizing text with
  | zero =>
    rw [List.length_eq_zero_iff.mp (Nat.le_zero.mp h), cutLines_last List.not_mem_nil]
    rfl
  | succ fuel ih =>
    obtain ⟨line, rest, rfl, hline, hrest⟩ : ∃ line rest, text = line ++ rest ∧ sep ∉ line ∧
        (rest = [] ∨ ∃ next, rest = sep::next) := by
      by_cases hmem : sep ∈ text
      · obtain ⟨line, next, rfl, hline⟩ := List.eq_append_cons_of_mem hmem
        exact ⟨line, sep::next, rfl, hline, Or.inr ⟨next, rfl⟩⟩
      · exact ⟨text, [], (List.append_nil text).symm, hmem, Or.inl rfl⟩
    rw [readPieces]
    by_cases hfull : n ≤ line.length
    · -- The first line does not fit with its end.
      have hpiece : line.take n ≠ [] := by
        rw [ne_eq, List.take_eq_nil_iff]
        rintro (rfl | rfl)
        · cases hn
        · exact absurd hn (Nat.not_lt.mpr hfull)
      have hfree : sep ∉ line.take n := fun hmem => hline (List.mem_of_mem_take hmem)
      rw [readPiece_full hline hfull, if_neg hpiece, texts_cons _ hpiece (takeWhile_ne hfree),
        cutLines_full hline hn hfull hrest, ih]
      simp only [List.length_append, List.length_drop] at h ⊢
      omega
    · rw [Nat.not_le] at hfull
      rcases hrest with rfl | ⟨next, rfl⟩
      · rw [List.append_nil, readPiece_last hline hfull, cutLines_last hline]
        -- The last line has no end of its own; if it is empty, nothing is read.
        by_cases hempty : line = []
        · rw [if_pos hempty, hempty]
          rfl
        · rw [if_neg hempty, texts_cons _ hempty (takeWhile_ne hline), ih _ (Nat.zero_le _),
            cutLines_last List.not_mem_nil, cut_nil, cut_of_le (Nat.le_of_lt hfull) hempty]
      · -- The line is read with its end, which its text does not have.
        rw [readPiece_line hline hfull, if_neg (by simp), texts_line hline (Nat.le_of_lt hfull),
          cutLines_line hline, ih]
        rw [List.length_append, List.length_cons] at h
        change next.length ≤ fuel
        omega

end BufferedLines

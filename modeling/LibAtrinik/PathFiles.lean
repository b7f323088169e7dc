import LibAtrinik.FuelLoop
import LibAtrinik.LexicalPath
import LibAtrinik.StdioStream
import Mathlib.Data.List.TakeWhile

namespace LibAtrinik.Path

open LexicalPath StdioStream

/-- The position of the last occurrence. -/
def strrchr (c : Char) : List Char → Option ℕ
  | [] => none
  | x::str =>
    match strrchr c str with
    | some i => some (i+1)
    | none => if x = c then some 0 else none

/-- One round of the loop of `path_basename`, which never changes the path. -/
def basenameRound (path : List Char) : List Char ⊕ List Char :=
  match strrchr '/' path with
  | none => .inr path
  | some slash => if path.drop (slash+1) ≠ [] then .inr (path.drop (slash+1)) else .inl path

/-- The result is `none` for a path that is `NULL`. -/
def pathBasename (fuel : ℕ) (path : Option (List Char)) : Option (Option (List Char)) :=
  match path with
  | none => some none
  | some path => (FuelLoop.run basenameRound fuel path).map some

theorem strrchr_eq_none {c : Char} {str : List Char} (h : c ∉ str) : strrchr c str = none := by
  induction str with
  | nil => rfl
  | cons x str ih =>
    rw [List.mem_cons, not_or] at h
    rw [strrchr, ih h.2]
    exact if_neg (Ne.symm h.1)

theorem strrchr_append {c : Char} (front : List Char) {word : List Char} (h : c ∉ word) :
    strrchr c (front ++ c::word) = some front.length := by
  induction front with
  | nil =>
    rw [List.nil_append, strrchr, strrchr_eq_none h]
    exact if_pos rfl
  | cons x front ih =>
    rw [List.cons_append, strrchr, ih]
    rfl

/-- A path is a word, or has a last slash. -/
theorem last_slash (path : List Char) :
    '/' ∉ path ∨ ∃ front word, path = front ++ '/'::word ∧ '/' ∉ word := by
  by_cases h : '/' ∈ path
  · right
    obtain ⟨word, front, hsplit, hword⟩ := List.eq_append_cons_of_mem (List.mem_reverse.mpr h)
    refine ⟨front.reverse, word.reverse, ?_, by rwa [List.mem_reverse]⟩
    rw [← List.reverse_reverse path, hsplit]
    simp
  · exact Or.inl h

theorem drop_slash (front word : List Char) :
    (front ++ '/'::word).drop (front.length+1) = word := by
  rw [← List.drop_drop, List.drop_left]
  rfl

/-- A path that ends in a slash is what every round begins with. -/
theorem basenameRound_slash (front : List Char) :
    basenameRound (front ++ ['/']) = .inl (front ++ ['/']) := by
  rw [basenameRound, strrchr_append front List.not_mem_nil]
  simp only [drop_slash, ne_eq, not_true_eq_false, if_false]

theorem basename_endless (front : List Char) (fuel : ℕ) :
    FuelLoop.run basenameRound fuel (front ++ ['/']) = none := by
  induction fuel with
  | zero => rfl
  | succ fuel ih => rw [FuelLoop.run_continue _ _ _ _ (basenameRound_slash front), ih]

theorem basenameRound_word (front : List Char) {word : List Char} (hword : '/' ∉ word)
    (hne : word ≠ []) : basenameRound (front ++ '/'::word) = .inr word := by
  rw [basenameRound, strrchr_append front hword]
  simp only [drop_slash, hne, ne_eq, not_false_eq_true, if_true]

/-- `path_basename` returns, and returns the last component if there is one, for the paths that do
not end in a slash. -/
theorem pathBasename_iff (path : List Char) :
    (∃ fuel result, pathBasename fuel (some path) = some (some result) ∧
      ∀ component, (components '/' path).getLast? = some component → result = component) ↔
    path.getLast? ≠ some '/' := by
  rcases last_slash path with hno | ⟨front, word, rfl, hword⟩
  · have hround : basenameRound path = .inr path := by rw [basenameRound, strrchr_eq_none hno]
    constructor
    · intro _ hlast
      exact hno (List.mem_of_getLast? hlast)
    · intro _
      refine ⟨1, path, ?_, ?_⟩
      · rw [pathBasename, FuelLoop.run_leave _ _ _ _ hround]
        rfl
      · intro component hlast
        by_cases hne : path = []
        · rw [hne, components_nil] at hlast
          simp at hlast
        · rw [components_word '/' hno hne] at hlast
          exact Option.some.inj hlast
  · by_cases hne : word = []
    · rw [hne]
      constructor
      · rintro ⟨fuel, result, hrun, -⟩
        rw [pathBasename, basename_endless] at hrun
        simp at hrun
      · intro hlast
        simp at hlast
    · constructor
      · intro _ hlast
        rw [List.getLast?_append_of_ne_nil _ (List.cons_ne_nil _ _), List.getLast?_cons] at hlast
        obtain ⟨last, hlast'⟩ := Option.ne_none_iff_exists'.mp (mt List.getLast?_eq_none_iff.mp hne)
        rw [hlast', Option.getD_some, Option.some.injEq] at hlast
        exact hword (List.mem_of_getLast? (hlast ▸ hlast'))
      · intro _
        refine ⟨1, word, ?_, ?_⟩
        · rw [pathBasename, FuelLoop.run_leave _ _ _ _ (basenameRound_word front hword hne)]
          rfl
        · intro component hlast
          rw [components_append_sep, components_word '/' hword hne, List.getLast?_concat] at hlast
          exact Option.some.inj hlast

/-- For `a/` the loop is not left, although there is a component. -/
theorem pathBasename_directory :
    (∀ fuel, pathBasename fuel (some ['a', '/']) = none) ∧
      (components '/' ['a', '/']).getLast? = some ['a'] := by
  refine ⟨fun fuel => ?_, by decide⟩
  have hendless := basename_endless ['a'] fuel
  rw [List.singleton_append] at hendless
  rw [pathBasename, hendless]
  rfl

def HUGE_BUF : ℕ := 4096

/-- One round of the loop: the stream that is read, and what is in `dst`. -/
def copyRound (state : Stream × List UInt8) : (Stream × List UInt8) ⊕ List UInt8 :=
  match fgets HUGE_BUF state.1 with
  | (none, _) => .inr state.2
  | (some buf, fp) => .inl (fp, state.2 ++ fputs buf)

/-- What is returned, and what is in `dst` afterwards. The stream that `fopen` gives for a path and
a mode is a parameter. -/
def pathCopyFile (fopen : List Char → List Char → Option Stream) (fuel : ℕ)
    (src : Option (List Char)) (dst : Option (List UInt8)) (mode : Option (List Char)) :
    Option (ℕ × Option (List UInt8)) :=
  match src, dst, mode with
  | some src, some dst, some mode =>
    match fopen src mode with
    | none => some (0, some dst)
    | some fp => (FuelLoop.run copyRound fuel (fp, dst)).map fun dst => (1, some dst)
  | _, dst, _ => some (0, dst)

theorem fputs_eq {buf : List UInt8} (h : 0 ∉ buf) : fputs buf = buf := by
  rw [fputs, List.takeWhile_eq_self_iff]
  intro c hc
  simp only [ne_eq, decide_not, Bool.not_eq_true', decide_eq_false_iff_not]
  rintro rfl
  exact h hc

theorem length_fputs_le (buf : List UInt8) : (fputs buf).length ≤ buf.length :=
  (List.takeWhile_sublist _).length_le

/-- A null character and what is behind it in the buffer are lost. -/
theorem length_fputs_lt {buf : List UInt8} (h : 0 ∈ buf) : (fputs buf).length < buf.length := by
  apply Nat.lt_of_le_of_ne (length_fputs_le buf)
  intro hlength
  have hall : buf.takeWhile (· ≠ 0) = buf := (List.takeWhile_prefix _).eq_of_length hlength
  rw [List.takeWhile_eq_self_iff] at hall
  simpa using hall 0 h

/-- What the loop adds to `dst`: all of a file without null characters, and less than all of a
file with one. -/
theorem copyRound_run (fuel : ℕ) {fp : Stream} (h : Sound fp) (dst : List UInt8)
    (hfuel : fp.rest.length < fuel) :
    ∃ copied, FuelLoop.run copyRound fuel (fp, dst) = some (dst ++ copied) ∧
      copied.length ≤ fp.rest.length ∧ (0 ∉ fp.rest → copied = fp.rest) ∧
      (0 ∈ fp.rest → copied.length < fp.rest.length) := by
  induction fuel generalizing fp dst with
  | zero => exact absurd hfuel (Nat.not_lt_zero _)
  | succ fuel ih =>
    obtain ⟨happend, hsound, hprogress⟩ := getLine_spec h (HUGE_BUF-1)
    -- a round takes at least one character off the stream, unless there is none
    by_cases hrest : fp.rest = []
    · have hline : (getLine (HUGE_BUF-1) fp).1 = [] := by
        rw [hrest] at happend
        exact (List.append_eq_nil_iff.mp happend).1
      have hround : copyRound (fp, dst) = .inr dst := by
        simp only [copyRound, fgets, hline, true_or, if_true]
      refine ⟨[], ?_, Nat.zero_le _, fun _ => hrest.symm, fun hin => ?_⟩
      · rw [FuelLoop.run_leave _ _ _ _ hround, List.append_nil]
      · rw [hrest] at hin
        exact absurd hin List.not_mem_nil
    · have hline := hprogress (by decide) hrest
      have hround : copyRound (fp, dst) = .inl ((getLine (HUGE_BUF-1) fp).2,
          dst ++ fputs (getLine (HUGE_BUF-1) fp).1) := by
        simp [copyRound, fgets, hline, hsound.error]
      have hlength := congrArg List.length happend
      have hpos := List.length_pos_iff.mpr hline
      rw [List.length_append] at hlength
      obtain ⟨copied, hrun, hle, heq, hlt⟩ :=
        ih hsound (dst ++ fputs (getLine (HUGE_BUF-1) fp).1) (by omega)
      have hwritten := length_fputs_le (getLine (HUGE_BUF-1) fp).1
      refine ⟨fputs (getLine (HUGE_BUF-1) fp).1 ++ copied, ?_, ?_, fun hno => ?_, fun hin => ?_⟩
      · rw [FuelLoop.run_continue _ _ _ _ hround, hrun, List.append_assoc]
      · rw [List.length_append]
        omega
      · rw [← happend, List.mem_append, not_or] at hno
        rw [fputs_eq hno.1, heq hno.2, happend]
      · rw [← happend, List.mem_append] at hin
        rw [List.length_append]
        rcases hin with hnow | hlater
        · have := length_fputs_lt hnow
          omega
        · have := hlt hlater
          omega

/-- A file is copied as it is when it has no null characters, whatever its lines are. -/
theorem pathCopyFile_iff (fopen : List Char → List Char → Option Stream) (src mode : List Char)
    (fp : Stream) (dst : List UInt8) (hopen : fopen src mode = some fp) (h : Sound fp) :
    ∃ fuel dst', pathCopyFile fopen fuel (some src) (some dst) (some mode) = some (1, some dst') ∧
      (dst' = dst ++ fp.rest ↔ 0 ∉ fp.rest) := by
  obtain ⟨copied, hrun, -, heq, hlt⟩ :=
    copyRound_run (fp.rest.length+1) h dst (Nat.lt_succ_self _)
  refine ⟨fp.rest.length+1, dst ++ copied, ?_, ?_, ?_⟩
  · rw [pathCopyFile, hopen]
    simp only [hrun, Option.map_some]
  · intro hsame hin
    rw [List.append_cancel_left hsame] at hlt
    exact Nat.lt_irrefl _ (hlt hin)
  · intro hno
    rw [heq hno]

/-- Of the bytes 1, 0 and 2 only the first one is copied. -/
theorem pathCopyFile_null :
    pathCopyFile (fun _ _ => some { rest := [1, 0, 2] }) 2 (some ['f']) (some [])
      (some ['r', 'b']) = some (1, some [1]) := by
  decide

theorem pathCopyFile_iff_lines :
    ∃ fuel dst', pathCopyFile (fun _ _ => some { rest := [1, 10, 2] }) fuel (some ['f'])
        (some [7]) (some ['r', 'b']) = some (1, some dst') ∧
      (dst' = [7] ++ [1, 10, 2] ↔ 0 ∉ [(1 : UInt8), 10, 2]) :=
  pathCopyFile_iff (fun _ _ => some { rest := [1, 10, 2] }) ['f'] ['r', 'b'] { rest := [1, 10, 2] }
    [7] rfl ⟨rfl, rfl⟩

end LibAtrinik.Path

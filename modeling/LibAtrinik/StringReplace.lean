import LibAtrinik.FuelLoop
import LibAtrinik.Substitution
import Mathlib.Data.List.Basic

namespace LibAtrinik.StringReplace

open Substitution

def snprintf (size : ℕ) (text : List Char) : List Char := text.take (size-1)

/-- The text in the buffer, and how many characters of the buffer were written, with the
terminator. -/
structure Replaced where
  text : List Char
  written : ℕ
deriving DecidableEq, Repr

/-- The body of the loop, with what is left of the source and what is in the buffer. -/
def replaceRound (key replacement : List Char) (resultsize : ℕ) (s : List Char × List Char) :
    (List Char × List Char) ⊕ List Char :=
  match s with
  | ([], result) => .inr result
  | (c::src, result) =>
    if result.length+1 < resultsize then
      if key.isPrefixOf (c::src) then
        .inl ((c::src).drop key.length,
          result ++ snprintf (resultsize-result.length) replacement)
      else .inl (src, result ++ [c])
    else .inr result

/-- With at most `fuel` rounds of the loop. -/
def stringReplace (fuel : ℕ) (src key replacement : List Char) (resultsize : ℕ) :
    Option Replaced :=
  if key = replacement then
    let text := snprintf resultsize src
    some ⟨text, if resultsize = 0 then 0 else text.length+1⟩
  else do
    let text ← FuelLoop.run (replaceRound key replacement resultsize) fuel (src, [])
    -- The terminator is written wherever the loop ends.
    some ⟨text, text.length+1⟩

example : stringReplace 9 "banana".toList "an".toList "AN!".toList 9 =
    some ⟨"bAN!AN!a".toList, 9⟩ := by decide

variable {key replacement result : List Char} {resultsize fuel : ℕ}

theorem replaceRound_full {src : List Char} (hfull : resultsize ≤ result.length+1) :
    replaceRound key replacement resultsize (src, result) = .inr result := by
  cases src with
  | nil => rfl
  | cons c src => rw [replaceRound, if_neg (by omega)]

/-- What `snprintf` cuts off has no room anyway. -/
theorem append_snprintf (hroom : result.length+1 < resultsize) (rest : List Char) :
    (result ++ snprintf (resultsize-result.length) replacement ++ rest).take (resultsize-1) =
      (result ++ (replacement ++ rest)).take (resultsize-1) := by
  have hsame : resultsize-result.length-1 = resultsize-1-result.length := by omega
  have hcut (room : ℕ) : (replacement.take room ++ rest).take room =
      (replacement ++ rest).take room := by
    have hleft : room-min room replacement.length = room-replacement.length := by omega
    rw [List.take_append, List.take_append, List.take_take, Nat.min_self, List.length_take, hleft]
  rw [snprintf, hsame, List.append_assoc, List.take_append, hcut, ← List.take_append]

theorem length_append_snprintf (hroom : result.length+1 < resultsize) :
    (result ++ snprintf (resultsize-result.length) replacement).length ≤ resultsize-1 := by
  rw [List.length_append, snprintf, List.length_take]
  omega

/-- The loop ends at once when the buffer is full. -/
theorem replaceLoop_full {src rest : List Char} (hresult : result.length ≤ resultsize-1)
    (hfull : resultsize ≤ result.length+1) :
    FuelLoop.run (replaceRound key replacement resultsize) (fuel+1) (src, result) =
      some ((result ++ rest).take (resultsize-1)) := by
  rw [FuelLoop.run_leave _ _ _ _ (replaceRound_full hfull),
    List.take_append_of_le_length (by omega), List.take_of_length_le hresult]

/-- The loop, by induction on the rest of the source. -/
theorem replaceLoop_eq (hkey : key ≠ []) (src : List Char)
    (hresult : result.length ≤ resultsize-1) (hfuel : src.length < fuel) :
    FuelLoop.run (replaceRound key replacement resultsize) fuel (src, result) =
      some ((result ++ substitute key replacement src).take (resultsize-1)) := by
  induction src using text_induction hkey generalizing result fuel with
  | nil =>
    obtain ⟨fuel, rfl⟩ := Nat.exists_eq_add_of_le' (Nat.zero_lt_of_lt hfuel)
    have hround : replaceRound key replacement resultsize ([], result) = .inr result := rfl
    rw [FuelLoop.run_leave _ _ _ _ hround, substitute_nil, List.append_nil,
      List.take_of_length_le hresult]
  | found src ih =>
    obtain ⟨fuel, rfl⟩ := Nat.exists_eq_add_of_le' (Nat.zero_lt_of_lt hfuel)
    by_cases hfull : resultsize ≤ result.length+1
    · exact replaceLoop_full hresult hfull
    · have hroom : result.length+1 < resultsize := Nat.not_le.mp hfull
      have hpos := List.length_pos_of_ne_nil hkey
      rw [List.length_append] at hfuel
      have hround : replaceRound key replacement resultsize (key ++ src, result) =
          .inl (src, result ++ snprintf (resultsize-result.length) replacement) := by
        cases key with
        | nil => exact absurd rfl hkey
        | cons c key =>
          have hbegins : (c::key).isPrefixOf (c::(key ++ src)) = true :=
            List.isPrefixOf_iff_prefix.mpr ⟨src, rfl⟩
          rw [List.cons_append, replaceRound, if_pos hroom, if_pos hbegins, ← List.cons_append,
            List.drop_left]
      rw [FuelLoop.run_continue _ _ _ _ hround,
        ih (length_append_snprintf hroom) (by omega), append_snprintf hroom,
        substitute_found hkey]
  | char c src h ih =>
    obtain ⟨fuel, rfl⟩ := Nat.exists_eq_add_of_le' (Nat.zero_lt_of_lt hfuel)
    by_cases hfull : resultsize ≤ result.length+1
    · exact replaceLoop_full hresult hfull
    · have hroom : result.length+1 < resultsize := Nat.not_le.mp hfull
      rw [List.length_cons] at hfuel
      have hround : replaceRound key replacement resultsize (c::src, result) =
          .inl (src, result ++ [c]) := by
        rw [replaceRound, if_pos hroom, if_neg (by rwa [List.isPrefixOf_iff_prefix])]
      have hlength : (result ++ [c]).length ≤ resultsize-1 := by
        rw [List.length_append, List.length_singleton]
        omega
      rw [FuelLoop.run_continue _ _ _ _ hround, ih hlength (by omega),
        substitute_char hkey _ h, List.append_assoc, List.singleton_append]

/-- With an empty key the loop never moves on in the source, and fills the buffer. -/
theorem replaceLoop_fill (hreplacement : replacement ≠ []) {src : List Char} (hsrc : src ≠ [])
    (hfuel : resultsize-1-result.length < fuel) (hresult : result.length ≤ resultsize-1) :
    ∃ times, resultsize-1 ≤ result.length+times*replacement.length ∧
      FuelLoop.run (replaceRound [] replacement resultsize) fuel (src, result) =
        some ((result ++ (List.replicate times replacement).flatten).take (resultsize-1)) := by
  induction fuel generalizing result with
  | zero => omega
  | succ fuel ih =>
    by_cases hfull : resultsize ≤ result.length+1
    · exact ⟨0, by omega, replaceLoop_full hresult hfull⟩
    · have hroom : result.length+1 < resultsize := Nat.not_le.mp hfull
      have hpos := List.length_pos_of_ne_nil hreplacement
      have hround : replaceRound [] replacement resultsize (src, result) =
          .inl (src, result ++ snprintf (resultsize-result.length) replacement) := by
        cases src with
        | nil => exact absurd rfl hsrc
        | cons c src =>
          have hbegins : List.isPrefixOf [] (c::src) = true := rfl
          rw [replaceRound, if_pos hroom, if_pos hbegins, List.length_nil, List.drop_zero]
      have hwritten : (result ++ snprintf (resultsize-result.length) replacement).length =
          result.length+min (resultsize-result.length-1) replacement.length := by
        rw [List.length_append, snprintf, List.length_take]
      obtain ⟨times, htimes, hrun⟩ := ih (by rw [hwritten]; omega) (length_append_snprintf hroom)
      refine ⟨times+1, ?_, ?_⟩
      · rw [hwritten] at htimes
        rw [Nat.add_mul, Nat.one_mul]
        omega
      · rw [FuelLoop.run_continue _ _ _ _ hround, hrun, append_snprintf hroom,
          List.replicate_succ, List.flatten_cons]

/-- The loop, whatever the key is. -/
theorem replaceLoop_text (hne : key ≠ replacement) (src : List Char) (resultsize : ℕ) :
    ∃ rounds text,
      (∀ fuel, rounds ≤ fuel →
        FuelLoop.run (replaceRound key replacement resultsize) fuel (src, []) = some text) ∧
      text.length ≤ resultsize-1 ∧
      (key ≠ [] → text = (substitute key replacement src).take (resultsize-1)) ∧
      (key = [] → src = [] → text = []) ∧
      (key = [] → src ≠ [] → ∃ times, resultsize-1 ≤ times*replacement.length ∧
        text = (List.replicate times replacement).flatten.take (resultsize-1)) := by
  by_cases hkey : key = []
  · subst hkey
    by_cases hsrc : src = []
    · subst hsrc
      refine ⟨1, [], fun fuel hfuel => ?_, Nat.zero_le _, fun h => absurd rfl h, fun _ _ => rfl,
        fun _ h => absurd rfl h⟩
      obtain ⟨fuel, rfl⟩ := Nat.exists_eq_add_of_le' hfuel
      exact FuelLoop.run_leave _ _ _ _ rfl
    · have hreplacement : replacement ≠ [] := fun h => hne h.symm
      have hfilled (fuel : ℕ) (hfuel : resultsize-1 < fuel) :=
        @replaceLoop_fill replacement [] resultsize fuel hreplacement src hsrc hfuel (Nat.zero_le _)
      obtain ⟨times, htimes, hrun⟩ := hfilled (resultsize-1+1) (Nat.lt_succ_self _)
      rw [List.length_nil, Nat.zero_add] at htimes
      refine ⟨resultsize-1+1, _, fun fuel hfuel => ?_, List.length_take_le _ _,
        fun h => absurd rfl h, fun _ h => absurd h hsrc, fun _ _ => ⟨times, htimes, rfl⟩⟩
      -- More rounds do not change what the loop leaves with.
      obtain ⟨_, _, hrun'⟩ := hfilled fuel hfuel
      rw [hrun', FuelLoop.run_unique _ _ _ _ _ _ hrun' hrun]
      rfl
  · refine ⟨src.length+1, (substitute key replacement src).take (resultsize-1),
      fun fuel hfuel => ?_, List.length_take_le _ _, fun _ => rfl, fun h => absurd h hkey,
      fun h => absurd h hkey⟩
    exact replaceLoop_eq hkey src (Nat.zero_le _) hfuel

/-- What the buffer holds at the end: the source with every leftmost occurrence of the key replaced,
as far as there is room for it. An empty key that is replaced by something fills the buffer, unless
the source is empty. No more than the buffer is written, unless it has no room for the terminator
and the key is not the same as the replacement. -/
theorem string_replace_leftmost (src key replacement : List Char) (resultsize : ℕ) :
    ∃ rounds out,
      (∀ fuel, rounds ≤ fuel → stringReplace fuel src key replacement resultsize = some out) ∧
      (key ≠ [] → ∃ pieces, Leftmost key pieces ∧ key.intercalate pieces = src ∧
        out.text = (replacement.intercalate pieces).take (resultsize-1)) ∧
      (key = [] → replacement = [] ∨ src = [] → out.text = src.take (resultsize-1)) ∧
      (key = [] → replacement ≠ [] → src ≠ [] →
        ∃ times, resultsize-1 ≤ times*replacement.length ∧
          out.text = (List.replicate times replacement).flatten.take (resultsize-1)) ∧
      (out.written ≤ resultsize ↔ 0 < resultsize ∨ key = replacement) := by
  have hpieces (hkey : key ≠ []) : Leftmost key (pieces key 0 src) ∧
      key.intercalate (pieces key 0 src) = src :=
    ⟨leftmost_pieces hkey src, substitute_self hkey src⟩
  by_cases hsame : key = replacement
  · subst hsame
    refine ⟨0, ⟨snprintf resultsize src,
      if resultsize = 0 then 0 else (snprintf resultsize src).length+1⟩, fun fuel _ => ?_,
      fun hkey => ⟨_, (hpieces hkey).1, (hpieces hkey).2, ?_⟩, fun _ _ => rfl,
      fun h h' => absurd h h', ?_⟩
    · rw [stringReplace, if_pos rfl]
    · rw [(hpieces hkey).2]
      rfl
    · have hlength : (snprintf resultsize src).length ≤ resultsize-1 := List.length_take_le _ _
      dsimp only
      by_cases hsize : resultsize = 0
      · rw [if_pos hsize]
        simp
      · rw [if_neg hsize]
        simp
        omega
  · obtain ⟨rounds, text, hrun, hlength, htext, hempty, hfill⟩ :=
      replaceLoop_text hsame src resultsize
    refine ⟨rounds, ⟨text, text.length+1⟩, fun fuel hfuel => ?_,
      fun hkey => ⟨_, (hpieces hkey).1, (hpieces hkey).2, htext hkey⟩, fun hkey hor => ?_,
      fun hkey _ hsrc => hfill hkey hsrc, ?_⟩
    · rw [stringReplace, if_neg hsame, hrun fuel hfuel]
      rfl
    · rcases hor with hreplacement | hsrc
      · exact absurd (hkey.trans hreplacement.symm) hsame
      · rw [hsrc, List.take_nil]
        exact hempty hkey hsrc
    · dsimp only
      rw [or_iff_left hsame]
      omega

end LibAtrinik.StringReplace

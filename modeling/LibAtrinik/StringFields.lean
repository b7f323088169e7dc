import LibAtrinik.CliOptions
import LibAtrinik.Path
import LibAtrinik.TerminatedText
import Mathlib.Data.List.Forall2

namespace LibAtrinik.StringFields

open CliOptions LibAtrinik.Path TerminatedText

/-- The inner loop of `string_split`, for a bounded number of rounds. -/
def scanField (mem : Memory) (sep : Char) : ℕ → ℕ → Option ℕ
  | 0, _ => none
  | fuel+1, p => if mem p ≠ NUL ∧ mem p ≠ sep then scanField mem sep fuel (p+1) else some p

/-- The outer loop of `string_split`, with so many elements of the array left. -/
def splitLoop (fuel : ℕ) (sep : Char) : ℕ → Memory → ℕ → Option (Memory × List ℕ)
  | 0, mem, _ => some (mem, [])
  | left+1, mem, p => do
    let q ← scanField mem sep fuel p
    if left = 0 then return (mem, [p])
    else if mem q ≠ sep then return (mem, [p])
    else do
      let (mem, array) ← splitLoop fuel sep left (Function.update mem q NUL) (q+1)
      return (mem, p::array)

/-- `string_split`: the memory, the array and the number of elements found. -/
def stringSplitAt (fuel : ℕ) (mem : Memory) (str : Option ℕ) (arraySize : ℕ) (sep : Char) :
    Option (Memory × List (Option ℕ) × ℕ) :=
  match str with
  | none => some (mem, List.replicate arraySize none, 0)
  | some str =>
    if mem str = NUL ∨ arraySize ≤ 0 then some (mem, List.replicate arraySize none, 0)
    else do
      let (mem, array) ← splitLoop fuel sep arraySize mem str
      return (mem, array.map some ++ List.replicate (arraySize-array.length) none, array.length)

/-- One round of the loop of `string_join_array`. -/
def joinStep (delim : Option (List Char)) (sb : StringBuffer) : Option (List Char) → StringBuffer
  | none => sb
  | some str =>
    let sb := match delim with
      | some delim =>
        if stringbufferLength sb ≠ 0 then stringbufferAppendString sb delim else sb
      | none => sb
    stringbufferAppendString sb str

def stringJoinArray (delim : Option (List Char)) (array : List (Option (List Char)))
    (arraysize : ℕ) : List Char :=
  stringbufferFinish ((array.take arraysize).foldl (joinStep delim) {})

variable {sep : Char} {n : ℕ} {s : List Char}

theorem splitFields_end (h : s.dropWhile (· ≠ sep) = []) :
    splitFields sep (n+1) s = [s] := by
  cases n with
  | zero => rw [splitFields]
  | succ n => rw [splitFields, h]

theorem splitFields_more {c : Char} {rest : List Char} (h : s.dropWhile (· ≠ sep) = c::rest) :
    splitFields sep (n+2) s = s.takeWhile (· ≠ sep) :: splitFields sep (n+1) rest := by
  rw [splitFields, h]

/-- Where a field ends there is a separator. -/
theorem split_at_sep {c : Char} {rest : List Char} (h : s.dropWhile (· ≠ sep) = c::rest) :
    c = sep ∧ s = s.takeWhile (· ≠ sep) ++ sep::rest := by
  have hhead := List.head_dropWhile_not (· ≠ sep) (l := s) (by rw [h]; exact List.cons_ne_nil _ _)
  simp only [h, List.head_cons, decide_eq_false_iff_not, not_not] at hhead
  refine ⟨hhead, ?_⟩
  conv_lhs => rw [← List.takeWhile_append_dropWhile (p := (· ≠ sep)) (l := s), h, hhead]

theorem takeWhile_of_end (h : s.dropWhile (· ≠ sep) = []) : s.takeWhile (· ≠ sep) = s := by
  have happend := List.takeWhile_append_dropWhile (p := (· ≠ sep)) (l := s)
  rwa [h, List.append_nil] at happend

theorem count_takeWhile (sep : Char) (s : List Char) : (s.takeWhile (· ≠ sep)).count sep = 0 := by
  rw [List.count_eq_zero]
  intro hin
  simpa using List.mem_takeWhile_imp hin

theorem length_splitFields (sep : Char) (n : ℕ) (s : List Char) :
    (splitFields sep (n+1) s).length = min (n+1) (1+s.count sep) := by
  induction n generalizing s with
  | zero => simp [splitFields]
  | succ n ih =>
    cases hdrop : s.dropWhile (· ≠ sep) with
    | nil =>
      have hcount := count_takeWhile sep s
      rw [takeWhile_of_end hdrop] at hcount
      rw [splitFields_end hdrop, hcount]
      simp
    | cons c rest =>
      have hcount : s.count sep = rest.count sep+1 := by
        rw [(split_at_sep hdrop).2, List.count_append, count_takeWhile, List.count_cons_self,
          Nat.zero_add]
      rw [splitFields_more hdrop, List.length_cons, ih, hcount]
      omega

/-- The fields with the separators between them are the string. -/
theorem intercalate_splitFields (sep : Char) (n : ℕ) (s : List Char) :
    [sep].intercalate (splitFields sep (n+1) s) = s := by
  induction n generalizing s with
  | zero => rw [splitFields, List.intercalate_singleton]
  | succ n ih =>
    cases hdrop : s.dropWhile (· ≠ sep) with
    | nil => rw [splitFields_end hdrop, List.intercalate_singleton]
    | cons c rest =>
      have hne : splitFields sep (n+1) rest ≠ [] := by
        intro hnil
        have hlength := length_splitFields sep n rest
        rw [hnil, List.length_nil] at hlength
        omega
      rw [splitFields_more hdrop, List.intercalate_cons_of_ne_nil hne, ih, List.append_assoc]
      exact (split_at_sep hdrop).2.symm

/-- The inner loop stops behind the field. -/
theorem scanField_eq (sep : Char) {mem : Memory} {p fuel : ℕ} (h : At mem p s)
    (hfuel : s.length < fuel) :
    scanField mem sep fuel p = some (p+(s.takeWhile (· ≠ sep)).length) := by
  induction s generalizing p fuel with
  | nil =>
    obtain ⟨fuel, rfl⟩ : ∃ k, fuel = k+1 := ⟨fuel-1, by omega⟩
    have hend : mem p = NUL := h
    rw [scanField, if_neg (fun hno => hno.1 hend)]
    rfl
  | cons c s ih =>
    rw [List.length_cons] at hfuel
    obtain ⟨fuel, rfl⟩ : ∃ k, fuel = k+1 := ⟨fuel-1, by omega⟩
    obtain ⟨hc, hne, hrest⟩ := h
    rw [scanField, hc]
    by_cases hsep : c = sep
    · rw [if_neg (fun hno => hno.2 hsep), List.takeWhile_cons_of_neg (by simpa using hsep)]
      rfl
    · rw [if_pos ⟨hne, hsep⟩, ih hrest (by omega), List.takeWhile_cons_of_pos (by simpa using hsep),
        List.length_cons]
      congr 1
      omega

/-- The outer loop leaves pointers to the fields, and writes to the string only. -/
theorem splitLoop_spec (hsep : sep ≠ NUL) (left fuel : ℕ) {mem : Memory} {p : ℕ} (h : At mem p s)
    (hfuel : s.length < fuel) :
    ∃ mem' array, splitLoop fuel sep (left+1) mem p = some (mem', array) ∧
      List.Forall₂ (At mem') array (splitFields sep (left+1) s) ∧ ∀ a < p, mem' a = mem a := by
  induction left generalizing s mem p with
  | zero =>
    refine ⟨mem, [p], ?_, List.Forall₂.cons h List.Forall₂.nil, fun _ _ => rfl⟩
    rw [splitLoop, scanField_eq sep h hfuel]
    rfl
  | succ left ih =>
    have hscan := scanField_eq sep h hfuel
    have hsplit := List.takeWhile_append_dropWhile (p := (· ≠ sep)) (l := s)
    have hfield : At mem p (s.takeWhile (· ≠ sep) ++ s.dropWhile (· ≠ sep)) := hsplit.symm ▸ h
    cases hdrop : s.dropWhile (· ≠ sep) with
    | nil =>
      -- the string ends with this field, and its terminator is no separator
      rw [hdrop] at hfield
      have hend : mem (p+(s.takeWhile (· ≠ sep)).length) = NUL := hfield.suffix
      refine ⟨mem, [p], ?_, ?_, fun _ _ => rfl⟩
      · rw [splitLoop, hscan, Option.bind_eq_bind, Option.bind_some, if_neg (Nat.succ_ne_zero left),
          if_pos (hend ▸ hsep.symm)]
        rfl
      · rw [splitFields_end hdrop]
        exact List.Forall₂.cons h List.Forall₂.nil
    | cons c rest =>
      -- the separator is overwritten, and the rest of the string is behind it
      rw [hdrop] at hfield
      obtain ⟨hc, -, hrest⟩ := hfield.suffix
      rw [(split_at_sep hdrop).1] at hc
      let mem₁ := Function.update mem (p+(s.takeWhile (· ≠ sep)).length) NUL
      have hother : ∀ a, a ≠ p+(s.takeWhile (· ≠ sep)).length → mem₁ a = mem a :=
        fun a ha => Function.update_of_ne ha _ _
      have hlength : rest.length < fuel := by
        have := congrArg List.length hsplit
        rw [hdrop, List.length_append, List.length_cons] at this
        omega
      obtain ⟨mem', array, hloop, hfields, hsame⟩ :=
        ih (hrest.congr fun a hlow _ => hother a (by omega)) hlength
      refine ⟨mem', p::array, ?_, ?_, ?_⟩
      · rw [splitLoop, hscan, Option.bind_eq_bind, Option.bind_some, if_neg (Nat.succ_ne_zero left),
          if_neg (not_not.mpr hc), hloop]
        rfl
      · rw [splitFields_more hdrop]
        refine List.Forall₂.cons (hfield.cut ?_ ?_) hfields
        · rw [hsame _ (Nat.lt_succ_self _)]
          exact Function.update_self _ _ _
        · exact fun a _ ha => (hsame a (by omega)).trans (hother a (by omega))
      · exact fun a ha => (hsame a (by omega)).trans (hother a (by omega))

/-- What `string_split` leaves in memory are the fields. -/
theorem stringSplitAt_spec (hsep : sep ≠ NUL) {fuel p : ℕ} {mem : Memory} (h : At mem p s)
    (hs : s ≠ []) (hn : 1 ≤ n) (hfuel : s.length < fuel) :
    ∃ mem' array, stringSplitAt fuel mem (some p) n sep =
        some (mem', array, (stringSplit s n sep).length) ∧
      List.Forall₂ (Option.Rel (At mem')) (array.take (stringSplit s n sep).length)
        ((stringSplit s n sep).map some) := by
  obtain ⟨n, rfl⟩ : ∃ k, n = k+1 := ⟨n-1, by omega⟩
  have hstart : mem p ≠ NUL := by
    cases s with
    | nil => exact absurd rfl hs
    | cons c s => exact h.1 ▸ h.2.1
  obtain ⟨mem', array, hloop, hfields, -⟩ := splitLoop_spec hsep n fuel h hfuel
  have hlength := hfields.length_eq
  rw [stringSplit, if_neg hs]
  refine ⟨mem', array.map some ++ List.replicate (n+1-array.length) none, ?_, ?_⟩
  · rw [stringSplitAt, if_neg (by simp [hstart]), hloop, ← hlength]
    rfl
  · rw [← hlength, List.take_left' (by rw [List.length_map]), List.forall₂_map_left_iff,
      List.forall₂_map_right_iff]
    exact hfields.imp fun _ _ hat => Option.Rel.some hat

theorem intercalate_cons (field : List Char) (fields : List (List Char)) :
    [sep].intercalate (field::fields) = field ++ fields.flatMap (sep :: ·) := by
  induction fields generalizing field with
  | nil => rw [List.intercalate_singleton, List.flatMap_nil, List.append_nil]
  | cons next fields ih =>
    rw [List.intercalate_cons_cons, ih, List.flatMap_cons, List.append_assoc]
    rfl

/-- Once there is something in the buffer every field is appended with its delimiter. -/
theorem join_nonempty (sb : StringBuffer) (hsb : sb.data ≠ []) (fields : List (List Char)) :
    ((fields.map some).foldl (joinStep (some [sep])) sb).data =
      sb.data ++ fields.flatMap (sep :: ·) := by
  induction fields generalizing sb with
  | nil => exact (List.append_nil _).symm
  | cons field fields ih =>
    have hlength : stringbufferLength sb ≠ 0 := fun hzero =>
      hsb (List.eq_nil_of_length_eq_zero hzero)
    have hstep : (joinStep (some [sep]) sb (some field)).data = sb.data ++ sep::field := by
      simp only [joinStep, if_pos hlength, stringbufferAppendString, List.append_assoc]
      rfl
    rw [List.map_cons, List.foldl_cons, ih _ (by rw [hstep]; simp), hstep, List.flatMap_cons,
      List.append_assoc]

/-- A field that is not empty starts the buffer. -/
theorem join_first {field : List Char} (hfield : field ≠ []) (fields : List (List Char)) :
    (((field::fields).map some).foldl (joinStep (some [sep])) {}).data =
      [sep].intercalate (field::fields) := by
  have hstep : joinStep (some [sep]) {} (some field) = { data := field } := rfl
  rw [List.map_cons, List.foldl_cons, hstep, join_nonempty _ hfield, intercalate_cons]

/-- An empty field at the start leaves no trace. -/
theorem join_empty (fields : List (List Char)) :
    ((([]::fields).map some).foldl (joinStep (some [sep])) {}).data =
      ((fields.map some).foldl (joinStep (some [sep])) {}).data := rfl

theorem length_join_le (sep : Char) (fields : List (List Char)) :
    ((fields.map some).foldl (joinStep (some [sep])) {}).data.length ≤
      ([sep].intercalate fields).length := by
  induction fields with
  | nil => exact Nat.zero_le _
  | cons field fields ih =>
    by_cases hfield : field = []
    · rw [hfield, join_empty]
      cases fields with
      | nil => exact ih
      | cons next fields =>
        rw [List.intercalate_cons_cons, List.length_append]
        omega
    · rw [join_first hfield]

theorem stringJoinArray_eq (fields : List (List Char)) :
    stringJoinArray (some [sep]) (fields.map some) fields.length =
      ((fields.map some).foldl (joinStep (some [sep])) {}).data := by
  rw [stringJoinArray, List.take_of_length_le (by rw [List.length_map])]
  rfl

/-- Joining undoes splitting unless the string begins with a separator that has been split at. -/
theorem join_splitFields_iff (hs : s ≠ []) (n : ℕ) :
    stringJoinArray (some [sep]) ((splitFields sep (n+1) s).map some)
        (splitFields sep (n+1) s).length = s ↔ n+1 = 1 ∨ s.head? ≠ some sep := by
  rw [stringJoinArray_eq]
  have hinter := intercalate_splitFields sep n s
  cases s with
  | nil => exact absurd rfl hs
  | cons c s =>
    cases n with
    | zero =>
      simp only [splitFields, Nat.zero_add, true_or, iff_true] at hinter ⊢
      rw [join_first hs, List.intercalate_singleton]
    | succ n =>
      by_cases hc : c = sep
      · -- the first field is empty, and its separator is not joined
        have hdrop : (c::s).dropWhile (· ≠ sep) = sep::s := by
          rw [List.dropWhile_cons_of_neg (by simpa using hc), hc]
        have htake : (c::s).takeWhile (· ≠ sep) = [] := by
          rw [List.takeWhile_cons_of_neg (by simpa using hc)]
        have hshort := length_join_le sep (splitFields sep (n+1) s)
        rw [intercalate_splitFields] at hshort
        rw [splitFields_more hdrop, htake, join_empty]
        constructor
        · intro hjoin
          have hlength := congrArg List.length hjoin
          rw [List.length_cons] at hlength
          omega
        · simp [hc]
      · have hfirst : ∃ field fields, field ≠ [] ∧
            splitFields sep (n+2) (c::s) = field::fields := by
          cases hdrop : (c::s).dropWhile (· ≠ sep) with
          | nil => exact ⟨_, [], hs, splitFields_end hdrop⟩
          | cons d rest =>
            refine ⟨_, _, ?_, splitFields_more hdrop⟩
            rw [List.takeWhile_cons_of_pos (by simpa using hc)]
            exact List.cons_ne_nil _ _
        obtain ⟨field, fields, hfield, hfields⟩ := hfirst
        rw [hfields] at hinter ⊢
        rw [join_first hfield, hinter]
        simp [hc]

/-- The number of fields is right for every string. Joining the fields gives the string back unless
it begins with a separator and the array has room for two fields. -/
theorem string_split_join_iff (hsep : sep ≠ NUL) {fuel p : ℕ} {mem : Memory} (h : At mem p s)
    (hs : s ≠ []) (hn : 1 ≤ n) (hfuel : s.length < fuel) :
    ∃ mem' array count fields, stringSplitAt fuel mem (some p) n sep = some (mem', array, count) ∧
      count = min n (1+s.count sep) ∧
      List.Forall₂ (Option.Rel (At mem')) (array.take count) fields ∧
      (stringJoinArray (some [sep]) fields count = s ↔ n = 1 ∨ s.head? ≠ some sep) := by
  obtain ⟨mem', array, hrun, hfields⟩ := stringSplitAt_spec hsep h hs hn hfuel
  obtain ⟨n, rfl⟩ : ∃ k, n = k+1 := ⟨n-1, by omega⟩
  refine ⟨mem', array, _, _, hrun, ?_, hfields, ?_⟩
  · rw [stringSplit, if_neg hs, length_splitFields]
  · rw [stringSplit, if_neg hs]
    exact join_splitFields_iff hs n

/-- Of `=a` the first field is empty, and is joined without a separator. -/
theorem string_split_join_leading :
    ∃ mem', stringSplitAt 3 (fun a => "=a".toList.getD a NUL) (some 0) 2 '=' =
        some (mem', [some 0, some 1], 2) ∧
      At mem' 0 [] ∧ At mem' 1 ['a'] ∧
      stringJoinArray (some ['=']) [some [], some ['a']] 2 = ['a'] ∧ "=a".toList ≠ ['a'] :=
  ⟨_, rfl, rfl, ⟨rfl, by decide, rfl⟩, rfl, by decide⟩

theorem string_split_join_iff_pair :
    ∃ mem' array count fields,
      stringSplitAt 4 (fun a => "a=b".toList.getD a NUL) (some 0) 2 '=' =
        some (mem', array, count) ∧
      count = min 2 (1+['a', '=', 'b'].count '=') ∧
      List.Forall₂ (Option.Rel (At mem')) (array.take count) fields ∧
      (stringJoinArray (some ['=']) fields count = ['a', '=', 'b'] ↔
        2 = 1 ∨ ['a', '=', 'b'].head? ≠ some '=') :=
  string_split_join_iff (by decide)
    (show At (fun a => "a=b".toList.getD a NUL) 0 ['a', '=', 'b'] from
      ⟨rfl, by decide, rfl, by decide, rfl, by decide, rfl⟩)
    (by decide) (by decide) (by decide)

end LibAtrinik.StringFields

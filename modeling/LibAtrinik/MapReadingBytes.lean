import LibAtrinik.MapReading

namespace LibAtrinik.MapProtocol

open Packet

section Definitions

variable {α : Type}

/-- What a reading of bytes gives and the position where it stops, if it does not run out of bytes.
-/
def Reading.stop (bytes : List UInt8) : Reading α → ℕ → Option (Option α × ℕ)
  | .ret a, pos => some (some a, pos)
  | .refuse, pos => some (none, pos)
  | .skip size next, pos =>
    if pos+size ≤ bytes.length then next.stop bytes (pos+size) else none
  | .read size next, pos =>
    if pos+size ≤ bytes.length then (next ((bytes.drop pos).take size)).stop bytes (pos+size)
    else none
  | .skipString next, pos =>
    match ((bytes.drop pos).take (packetPayloadMax+1)).findIdx? (· = 0) with
    | none => none
    | some len => next.stop bytes (pos+(len+1))
  | .fits size next, pos =>
    if size > bytes.length-pos then some (none, pos) else next.stop bytes pos
  | .view size next, pos =>
    if pos+size ≤ bytes.length then (next ((bytes.drop pos).take size)).stop bytes (pos+size)
    else none

/-- A reading with a reader has gone as the bytes say. -/
def Stopped (result : Option α × ScopedReader) : Option (Option α × ℕ) → Prop
  | none => result.2.1.error ≠ .none
  | some (a, pos) => result.1 = a ∧ result.2.1.error = .none ∧ result.2.1.pos = pos

/-- Where a map message stops: at the first field that is refused, or at its end, which is to be the
end of the bytes. -/
def messageStop (bytes : List UInt8) (pos : ℕ) (mapWidthLimit mapHeightLimit : ℤ) : Option ℕ :=
  match (readMessage mapWidthLimit mapHeightLimit).stop bytes pos with
  | none => none
  | some (none, stop) => some stop
  | some (some _, stop) => if stop = bytes.length then some stop else none

end Definitions

section Readers

variable {r : ScopedReader}

theorem take_fits (herror : r.1.error = .none) (len : ℕ)
    (hfit : r.1.pos+len ≤ r.1.data.length) :
    (scopedTake r len).1 = some ((r.1.data.drop r.1.pos).take len) ∧
      (scopedTake r len).2.1 = { r.1 with pos := r.1.pos+len } := by
  have hinside : r.1.Inside := Nat.le_trans (Nat.le_add_right _ _) hfit
  have hremaining := remaining_of_inside hinside
  unfold scopedTake
  rw [if_neg (not_not.mpr herror), if_neg (by rw [hremaining]; omega)]
  by_cases hzero : len = 0
  · rw [if_pos hzero, hzero, List.take_zero]
    exact ⟨rfl, rfl⟩
  · rw [if_neg hzero]
    exact ⟨rfl, rfl⟩

theorem fail_error (herror : r.1.error = .none) {error : PacketError} (hne : error ≠ .none) :
    (scopedFail r error).1.error ≠ .none := by
  change (packetReaderFail r.1 error).error ≠ .none
  unfold packetReaderFail
  rw [if_pos herror]
  exact hne

theorem take_short (herror : r.1.error = .none) (hinside : r.1.Inside) (len : ℕ)
    (hlong : ¬r.1.pos+len ≤ r.1.data.length) :
    (scopedTake r len).1 = none ∧ (scopedTake r len).2.1.error ≠ .none := by
  have hremaining := remaining_of_inside hinside
  have hpos : r.1.pos ≤ r.1.data.length := hinside
  unfold scopedTake
  rw [if_neg (not_not.mpr herror), if_pos (by rw [hremaining]; omega)]
  exact ⟨rfl, fail_error herror (by decide)⟩

theorem skip_fits (herror : r.1.error = .none) (len : ℕ)
    (hfit : r.1.pos+len ≤ r.1.data.length) :
    (scopedSkip r len).1 = true ∧ (scopedSkip r len).2.1 = { r.1 with pos := r.1.pos+len } := by
  obtain ⟨hvalue, hreader⟩ := take_fits herror len hfit
  unfold scopedSkip
  by_cases hzero : len = 0 ∧ r.1.error = .none
  · rw [if_pos hzero, hzero.1]
    exact ⟨rfl, rfl⟩
  · rw [if_neg hzero]
    refine ⟨?_, hreader⟩
    dsimp only
    rw [hvalue]
    rfl

theorem skip_short (herror : r.1.error = .none) (hinside : r.1.Inside) (len : ℕ)
    (hlong : ¬r.1.pos+len ≤ r.1.data.length) :
    (scopedSkip r len).1 = false ∧ (scopedSkip r len).2.1.error ≠ .none := by
  obtain ⟨hvalue, hreader⟩ := take_short herror hinside len hlong
  have hpos : r.1.pos ≤ r.1.data.length := hinside
  unfold scopedSkip
  rw [if_neg fun hzero => hlong (by rw [hzero.1]; exact hpos)]
  refine ⟨?_, hreader⟩
  dsimp only
  rw [hvalue]
  rfl

/-- A string is found among the bytes that may belong to it. -/
theorem stringView_stops (herror : r.1.error = .none) (hinside : r.1.Inside) :
    match ((r.1.data.drop r.1.pos).take (packetPayloadMax+1)).findIdx? (· = 0) with
    | none => (scopedReadStringView r packetPayloadMax).2.1.error ≠ .none
    | some len => (scopedReadStringView r packetPayloadMax).2.1 =
        { r.1 with pos := r.1.pos+(len+1) } := by
  have hremaining := remaining_of_inside hinside
  have hsearch : (r.1.data.drop r.1.pos).take (min (packetReaderRemaining r.1)
      (packetPayloadMax+if packetPayloadMax ≠ sizeMax then 1 else 0)) =
      (r.1.data.drop r.1.pos).take (packetPayloadMax+1) := by
    rw [if_pos (by decide), hremaining, ← List.length_drop, Nat.min_comm, ← List.take_eq_take_min]
  unfold scopedReadStringView
  rw [if_neg (not_not.mpr herror)]
  dsimp only
  by_cases hempty : packetReaderRemaining r.1 = 0
  · have hnil : r.1.data.drop r.1.pos = [] := by
      apply List.drop_eq_nil_of_le
      omega
    rw [if_pos hempty, hnil]
    exact fail_error herror (by decide)
  rw [if_neg hempty, hsearch]
  cases hfind : ((r.1.data.drop r.1.pos).take (packetPayloadMax+1)).findIdx? (· = 0) with
  | none =>
    dsimp only
    apply fail_error herror
    split_ifs <;> decide
  | some len =>
    dsimp only
    have hlt := (List.findIdx?_eq_some_iff_getElem.mp hfind).1
    rw [List.length_take] at hlt
    rw [if_neg (by omega)]
    rfl

end Readers

section Readings

variable {α : Type}

/-- Every reading stops where the bytes say. -/
theorem Reading.stop_spec (reading : Reading α) {r : ScopedReader} (herror : r.1.error = .none)
    (hinside : r.1.Inside) : Stopped (reading.scoped r) (reading.stop r.1.data r.1.pos) := by
  induction reading generalizing r with
  | ret a => exact ⟨rfl, herror, rfl⟩
  | refuse => exact ⟨rfl, herror, rfl⟩
  | skip size next ih =>
    rw [Reading.scoped, Reading.stop]
    dsimp only
    by_cases hfit : r.1.pos+size ≤ r.1.data.length
    · obtain ⟨hok, hreader⟩ := skip_fits herror size hfit
      have hnext := @ih (scopedSkip r size).2 (by rw [hreader]; exact herror)
        (by rw [hreader]; exact hfit)
      rw [hreader] at hnext
      rw [if_pos hok, if_pos hfit]
      exact hnext
    · obtain ⟨hok, hreader⟩ := skip_short herror hinside size hfit
      rw [if_neg (by rw [hok]; decide), if_neg hfit]
      exact hreader
  | read size next ih =>
    rw [Reading.scoped, Reading.stop]
    dsimp only
    by_cases hfit : r.1.pos+size ≤ r.1.data.length
    · obtain ⟨hvalue, hreader⟩ := take_fits herror size hfit
      have hnext := @ih ((r.1.data.drop r.1.pos).take size) (scopedTake r size).2
        (by rw [hreader]; exact herror) (by rw [hreader]; exact hfit)
      rw [hreader] at hnext
      rw [if_pos (by rw [hreader]; exact herror), if_pos hfit, hvalue]
      exact hnext
    · obtain ⟨_, hreader⟩ := take_short herror hinside size hfit
      rw [if_neg hreader, if_neg hfit]
      exact hreader
  | skipString next ih =>
    rw [Reading.scoped, Reading.stop]
    dsimp only
    have hview := stringView_stops herror hinside
    cases hfind : ((r.1.data.drop r.1.pos).take (packetPayloadMax+1)).findIdx? (· = 0) with
    | none =>
      rw [hfind] at hview
      rw [if_neg hview]
      exact hview
    | some len =>
      rw [hfind] at hview
      dsimp only at hview ⊢
      have hlt := (List.findIdx?_eq_some_iff_getElem.mp hfind).1
      rw [List.length_take, List.length_drop] at hlt
      have hend : r.1.pos+(len+1) ≤ r.1.data.length := by omega
      have hnext := @ih (scopedReadStringView r packetPayloadMax).2 (by rw [hview]; exact herror)
        (by rw [hview]; exact hend)
      rw [hview] at hnext
      rw [if_pos (by rw [hview]; exact herror)]
      exact hnext
  | fits size next ih =>
    rw [Reading.scoped, Reading.stop]
    dsimp only
    rw [remaining_of_inside hinside]
    by_cases hlong : size > r.1.data.length-r.1.pos
    · rw [if_pos hlong, if_pos hlong]
      exact ⟨rfl, herror, rfl⟩
    · rw [if_neg hlong, if_neg hlong]
      exact ih herror hinside
  | view size next ih =>
    rw [Reading.scoped, Reading.stop]
    dsimp only
    by_cases hfit : r.1.pos+size ≤ r.1.data.length
    · obtain ⟨hvalue, hreader⟩ := take_fits herror size hfit
      have hnext := @ih ((r.1.data.drop r.1.pos).take size) (scopedTake r size).2
        (by rw [hreader]; exact herror) (by rw [hreader]; exact hfit)
      rw [hreader] at hnext
      rw [if_pos hfit, hvalue]
      exact hnext
    · obtain ⟨_, hreader⟩ := take_short herror hinside size hfit
      have hsticky := (next ((scopedTake r size).1.getD [])).follows.sticky (scopedTake r size).2
        hreader
      rw [if_neg hfit]
      change _ ≠ _
      rw [hsticky]
      exact hreader

/-- The validator leaves its reader as the bytes say. -/
theorem validate_stops (mapWidthLimit mapHeightLimit : ℤ) {r : ScopedReader}
    (herror : r.1.error = .none) (hinside : r.1.Inside) :
    match messageStop r.1.data r.1.pos mapWidthLimit mapHeightLimit with
    | none => (validateScoped mapWidthLimit mapHeightLimit r).2.1.error ≠ .none
    | some stop => (validateScoped mapWidthLimit mapHeightLimit r).2.1.error = .none ∧
        (validateScoped mapWidthLimit mapHeightLimit r).2.1.pos = stop := by
  have hmessage := (readMessage mapWidthLimit mapHeightLimit).stop_spec herror hinside
  have hdata := (readMessage mapWidthLimit mapHeightLimit).follows.data r
  unfold messageStop validateScoped
  dsimp only
  cases hstop : (readMessage mapWidthLimit mapHeightLimit).stop r.1.data r.1.pos with
  | none =>
    rw [hstop] at hmessage
    have hbad : ((readMessage mapWidthLimit mapHeightLimit).scoped r).2.1.error ≠ .none := hmessage
    dsimp only
    cases ((readMessage mapWidthLimit mapHeightLimit).scoped r).1 with
    | none => exact hbad
    | some levelMask =>
      change (scopedFinish _).2.1.error ≠ .none
      rw [follows_finish.sticky _ hbad]
      exact hbad
  | some result =>
    obtain ⟨answer, stop⟩ := result
    rw [hstop] at hmessage
    obtain ⟨hanswer, hgood, hpos⟩ := hmessage
    rw [hanswer]
    cases answer with
    | none => exact ⟨hgood, hpos⟩
    | some levelMask =>
      dsimp only
      unfold scopedFinish
      rw [hgood, hpos, hdata]
      by_cases hend : stop = r.1.data.length
      · rw [if_pos hend, if_neg fun hboth => hboth.2 hend]
        exact ⟨hgood, hpos⟩
      · rw [if_neg hend, if_pos ⟨rfl, hend⟩]
        exact fail_error hgood (by decide)

/-- A message that can be read has a byte at least. -/
theorem messageStop_forward {bytes : List UInt8} {pos stop : ℕ} {mapWidthLimit mapHeightLimit : ℤ}
    (h : messageStop bytes pos mapWidthLimit mapHeightLimit = some stop) : pos < stop := by
  obtain ⟨next, hmessage⟩ : ∃ next, readMessage mapWidthLimit mapHeightLimit = .read 1 next := ⟨_, rfl⟩
  have hstop : ∃ answer, (readMessage mapWidthLimit mapHeightLimit).stop bytes pos =
      some (answer, stop) := by
    unfold messageStop at h
    split at h
    · cases h
    · next heq => exact ⟨none, by rw [heq, Option.some.inj h]⟩
    · next heq =>
      split_ifs at h
      exact ⟨_, by rw [heq, Option.some.inj h]⟩
  obtain ⟨answer, hstop⟩ := hstop
  rw [hmessage] at hstop
  have hfit : pos+1 ≤ bytes.length := by
    by_contra hlong
    rw [Reading.stop, if_neg hlong] at hstop
    cases hstop
  -- after the first byte the reader only goes forward
  have hinside : (initReader bytes pos).Inside := Nat.le_of_succ_le hfit
  have hspec := (Reading.read 1 next).stop_spec (r := (initReader bytes pos, none)) rfl hinside
  change Stopped _ ((Reading.read 1 next).stop bytes pos) at hspec
  rw [hstop] at hspec
  obtain ⟨_, _, hpos⟩ := hspec
  obtain ⟨_, hreader⟩ := take_fits (r := (initReader bytes pos, none)) rfl 1 hfit
  rw [Reading.scoped] at hpos
  dsimp only at hpos
  rw [if_pos (by rw [hreader]; rfl)] at hpos
  have hforward := (next ((scopedTake (initReader bytes pos, none) 1).1.getD [])).follows.forward
    (scopedTake (initReader bytes pos, none) 1).2
  rw [hreader, hpos] at hforward
  exact hforward

end Readings

end LibAtrinik.MapProtocol

import LibAtrinik.PacketScopes

namespace LibAtrinik.Packet

/-- The reader is not behind the end of its data. -/
def PacketReader.Inside (reader : PacketReader) : Prop := reader.pos ≤ reader.data.length

theorem remaining_of_inside {reader : PacketReader} (h : reader.Inside) :
    packetReaderRemaining reader = reader.data.length-reader.pos :=
  if_pos h

theorem scopedFail_inside {r : ScopedReader} (h : r.1.Inside) (error : PacketError) :
    (scopedFail r error).1.Inside := by
  change (packetReaderFail r.1 error).Inside
  unfold packetReaderFail
  split_ifs
  · exact h
  · exact h

theorem scopedAdvance_inside {r : ScopedReader} (h : r.1.Inside) {n : ℕ}
    (hn : n ≤ packetReaderRemaining r.1) : (scopedAdvance r n).1.Inside := by
  rw [remaining_of_inside h] at hn
  have hpos : r.1.pos ≤ r.1.data.length := h
  change r.1.pos+n ≤ r.1.data.length
  omega

theorem scopedTake_inside {r : ScopedReader} (h : r.1.Inside) (len : ℕ) :
    (scopedTake r len).2.1.Inside := by
  unfold scopedTake
  by_cases herror : r.1.error ≠ .none
  · rw [if_pos herror]
    exact h
  rw [if_neg herror]
  by_cases hlong : len > packetReaderRemaining r.1
  · rw [if_pos hlong]
    exact scopedFail_inside h .truncated
  rw [if_neg hlong]
  by_cases hzero : len = 0
  · rw [if_pos hzero]
    exact h
  · rw [if_neg hzero]
    exact scopedAdvance_inside h (by omega)

theorem scopedSkip_inside {r : ScopedReader} (h : r.1.Inside) (len : ℕ) :
    (scopedSkip r len).2.1.Inside := by
  unfold scopedSkip
  split_ifs
  · exact h
  · exact scopedTake_inside h len

theorem scopedReadStringView_inside {r : ScopedReader} (h : r.1.Inside) (maxLen : ℕ) :
    (scopedReadStringView r maxLen).2.1.Inside := by
  unfold scopedReadStringView
  by_cases herror : r.1.error ≠ .none
  · rw [if_pos herror]
    exact h
  rw [if_neg herror]
  dsimp only
  by_cases hempty : packetReaderRemaining r.1 = 0
  · rw [if_pos hempty]
    exact scopedFail_inside h .truncated
  rw [if_neg hempty]
  cases hfind : ((r.1.data.drop r.1.pos).take (min (packetReaderRemaining r.1)
      (maxLen+if maxLen ≠ sizeMax then 1 else 0))).findIdx? (· = 0) with
  | none => exact scopedFail_inside h _
  | some len =>
    dsimp only
    by_cases hlong : len > maxLen
    · rw [if_pos hlong]
      exact scopedFail_inside h .limitExceeded
    · rw [if_neg hlong]
      have hlt := (List.findIdx?_eq_some_iff_getElem.mp hfind).1
      rw [List.length_take] at hlt
      exact scopedAdvance_inside h (by omega)

/-- No operation leaves the data. -/
theorem operation_inside {r : ScopedReader} (h : r.1.Inside) (operation : Operation) :
    (operation.scoped r).2.1.Inside := by
  cases operation with
  | take len => exact scopedTake_inside h len
  | skip len => exact scopedSkip_inside h len
  | readStringView maxLen => exact scopedReadStringView_inside h maxLen
  | readStringBounded destSize maxLen =>
    have hview := scopedReadStringView_inside h maxLen
    change (scopedReadStringBounded r destSize maxLen).2.1.Inside
    unfold scopedReadStringBounded
    dsimp only
    split_ifs
    · exact hview
    · exact scopedFail_inside hview .limitExceeded
    · exact hview
  | readCount n maximum =>
    have htake := scopedTake_inside h n
    change (scopedReadCount r n maximum).2.1.Inside
    unfold scopedReadCount
    dsimp only
    split_ifs
    · exact htake
    · exact scopedFail_inside htake .limitExceeded
    · exact htake
  | finish =>
    change (scopedFinish r).2.1.Inside
    unfold scopedFinish
    split_ifs
    · exact scopedFail_inside h .trailingData
    · exact h
  | setError error => exact scopedFail_inside h error

end LibAtrinik.Packet

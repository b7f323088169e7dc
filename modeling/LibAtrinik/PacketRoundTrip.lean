import LibAtrinik.PacketFields
import Mathlib.Data.List.TakeWhile

namespace LibAtrinik.Packet

/-- What a write asks of the packet: to append the encoding of its field. Only the length of a
string can be out of the range of a `size_t` once the zero is counted. -/
theorem write_eq (packet : PacketStruct) (hempty : packetAppend packet [] = packet)
    (v : Field) (t : FieldType) (ht : v.HasType t) :
    v.write packet = packetAppend packet v.encode ∨
      (sizeMax < v.encode.length ∧ v.write packet = { packet with error := .sizeOverflow }) := by
  have hunsigned {w : ℕ} (v : BitVec w) (n : ℕ) :=
    congrArg (packetAppend packet) (BigEndian.stored_ushiftRight v n)
  have hsigned {w : ℕ} (v : BitVec w) (n : ℕ) (h : 8*n ≤ w) :=
    congrArg (packetAppend packet) (BigEndian.stored_sshiftRight v n h)
  cases ht with
  | uint8 v => exact Or.inl rfl
  | int8 v => exact Or.inl rfl
  | uint16 v => exact Or.inl (hunsigned v.toBitVec 2)
  | int16 v => exact Or.inl (hsigned v.toBitVec 2 (by decide))
  | uint32 v => exact Or.inl (hunsigned v.toBitVec 4)
  | int32 v => exact Or.inl (hsigned v.toBitVec 4 (by decide))
  | uint64 v => exact Or.inl (hunsigned v.toBitVec 8)
  | int64 v => exact Or.inl (hsigned v.toBitVec 8 (by decide))
  | float bits => exact Or.inl (hunsigned bits.toBitVec 4)
  | double bits => exact Or.inl (hunsigned bits.toBitVec 8)
  | bytes data =>
    left
    show packetWriterWriteBytes packet data = packetAppend packet data
    unfold packetWriterWriteBytes
    split_ifs with h
    · rw [List.length_eq_zero_iff.mp h, hempty]
    · rfl
  | cstring data maxLen hzero hmax =>
    have hwhole : data.takeWhile (· ≠ 0) = data := by
      rw [List.takeWhile_eq_self_iff]
      intro b hmem
      exact decide_eq_true fun he => hzero (he ▸ hmem)
    show packetWriterWriteCstring packet data = packetAppend packet (data ++ [0]) ∨
      (sizeMax < (data ++ [0]).length ∧
        packetWriterWriteCstring packet data = { packet with error := .sizeOverflow })
    rw [packetWriterWriteCstring, hwhole, packetWriterWriteCstringN]
    by_cases h : data.length = sizeMax
    · right
      rw [if_pos h, List.length_append, h]
      exact ⟨Nat.lt_succ_self _, rfl⟩
    · left
      rw [if_neg h, List.take_length]

/-- One write: the field is appended, or nothing is. -/
theorem write_cases (packet : PacketStruct) (hb : packet.Bounded) (herr : packet.error = .none)
    (v : Field) (t : FieldType) (ht : v.HasType t) :
    (packet.len+v.encode.length ≤ packet.limit ∧ packet.HasRoom v.encode.length ∧
      v.write packet = packet.appended v.encode) ∨
    (¬(packet.len+v.encode.length ≤ packet.limit ∧ packet.HasRoom v.encode.length) ∧
      (v.write packet).error ≠ .none ∧ (v.write packet).data = packet.data) := by
  rcases write_eq packet (packetAppend_nil packet hb herr) v t ht with h | ⟨hlong, h⟩
  · rw [h]
    rcases packetAppend_cases packet hb herr v.encode with hdone | ⟨hno, error, hne, he⟩
    · exact Or.inl hdone
    · rw [he]
      exact Or.inr ⟨hno, hne, rfl⟩
  · right
    rw [h]
    have hlimit := hb.limit
    exact ⟨fun hfit => by omega, fun he => (nomatch he), rfl⟩

/-- Nothing is written after an error. -/
theorem write_error (packet : PacketStruct) (herr : packet.error ≠ .none) (v : Field)
    (t : FieldType) (ht : v.HasType t) :
    (v.write packet).error ≠ .none ∧ (v.write packet).data = packet.data := by
  rcases write_eq packet (packetAppend_error packet [] herr) v t ht with h | ⟨_, h⟩
  · rw [h, packetAppend_error packet _ herr]
    exact ⟨herr, rfl⟩
  · rw [h]
    exact ⟨fun he => (nomatch he), rfl⟩

theorem writeAll_error (fields : List Field) (ts : List FieldType)
    (ht : List.Forall₂ Field.HasType fields ts) (packet : PacketStruct)
    (herr : packet.error ≠ .none) :
    (writeAll packet fields).error ≠ .none ∧ (writeAll packet fields).data = packet.data := by
  induction ht generalizing packet with
  | nil => exact ⟨herr, rfl⟩
  | @cons v t vs ts ht _ ih =>
    obtain ⟨herr', hdata⟩ := write_error packet herr v t ht
    obtain ⟨hall, hdata'⟩ := ih (v.write packet) herr'
    exact ⟨hall, hdata'.trans hdata⟩

/-- There is room for each field when its turn comes. -/
def PacketStruct.Roomy : PacketStruct → List Field → Prop
  | _, [] => True
  | packet, v :: vs =>
    packet.HasRoom v.encode.length ∧ (packet.appended v.encode).Roomy vs

instance PacketStruct.decidableRoomy :
    ∀ (packet : PacketStruct) (fields : List Field), Decidable (packet.Roomy fields)
  | _, [] => inferInstanceAs (Decidable True)
  | packet, v :: vs =>
    haveI := PacketStruct.decidableRoomy (packet.appended v.encode) vs
    inferInstanceAs (Decidable (_ ∧ _))

/-- There is room for a message of at most half the limit, however the packet grows. -/
theorem roomy_of_half (fields : List Field) (packet : PacketStruct)
    (h : 2*(packet.len+(encodeAll fields).length) ≤ packet.limit) : packet.Roomy fields := by
  induction fields generalizing packet with
  | nil => trivial
  | cons v vs ih =>
    have hencode : (encodeAll (v :: vs)).length = v.encode.length+(encodeAll vs).length :=
      List.length_append
    have hlen : (packet.appended v.encode).len = packet.len+v.encode.length := List.length_append
    have hlimit : (packet.appended v.encode).limit = packet.limit := rfl
    constructor
    · -- what is allocated is either enough already or less than half the limit
      by_cases hfree : v.encode.length ≤ packet.size-packet.len
      · exact Or.inl hfree
      · exact Or.inr (by omega)
    · apply ih
      rw [hlen, hlimit]
      omega

/-- A whole message: all of it is written exactly if the limit admits it and there is room for
each field. Otherwise the packet has an error, and what it holds is too short. -/
theorem writeAll_cases (fields : List Field) (ts : List FieldType)
    (ht : List.Forall₂ Field.HasType fields ts) (packet : PacketStruct) (hb : packet.Bounded)
    (herr : packet.error = .none) :
    (packet.len+(encodeAll fields).length ≤ packet.limit ∧ packet.Roomy fields ∧
      (writeAll packet fields).error = .none ∧
      (writeAll packet fields).data = packet.data ++ encodeAll fields) ∨
    (¬(packet.len+(encodeAll fields).length ≤ packet.limit ∧ packet.Roomy fields) ∧
      (writeAll packet fields).error ≠ .none ∧
      (writeAll packet fields).len < packet.len+(encodeAll fields).length) := by
  induction ht generalizing packet with
  | nil =>
    left
    refine ⟨hb.len_le_limit, trivial, herr, ?_⟩
    rw [encodeAll, List.flatMap_nil, List.append_nil]
    rfl
  | @cons v t vs ts ht hts ih =>
    have hencode : encodeAll (v :: vs) = v.encode ++ encodeAll vs := rfl
    have hwrite : writeAll packet (v :: vs) = writeAll (v.write packet) vs := rfl
    rw [hencode, hwrite, List.length_append]
    rcases write_cases packet hb herr v t ht with ⟨hfit, hroom, h⟩ | ⟨hno, herr', hdata⟩
    · -- the field is written, and the others follow
      rw [h]
      have hlen : (packet.appended v.encode).len = packet.len+v.encode.length :=
        List.length_append
      have hlimit : (packet.appended v.encode).limit = packet.limit := rfl
      rcases ih (packet.appended v.encode) (hb.appended v.encode hfit) herr with
        ⟨hfits, hroomy, herrs, hdatas⟩ | ⟨hno, herrs, hshort⟩
      · rw [hlen, hlimit, Nat.add_assoc] at hfits
        refine Or.inl ⟨hfits, ⟨hroom, hroomy⟩, herrs, ?_⟩
        rw [hdatas, ← List.append_assoc]
        rfl
      · rw [hlen, hlimit, Nat.add_assoc] at hno
        rw [hlen, Nat.add_assoc] at hshort
        exact Or.inr ⟨fun h => hno ⟨h.1, h.2.2⟩, herrs, hshort⟩
    · -- the field is refused, and it was not an empty one
      obtain ⟨herrs, hdatas⟩ := writeAll_error vs ts hts (v.write packet) herr'
      refine Or.inr ⟨fun h => hno ⟨by omega, h.2.1⟩, herrs, ?_⟩
      have hpos : 0 < v.encode.length := by
        by_contra hzero
        have hlen := hb.len_le_limit
        exact hno ⟨by omega, Or.inl (by omega)⟩
      have hlen : (writeAll (v.write packet) vs).len = packet.len :=
        congrArg List.length (hdatas.trans hdata)
      omega

/-- A new packet takes every message of at most half its limit. -/
theorem writeAll_packetNew (fields : List Field) (ts : List FieldType)
    (ht : List.Forall₂ Field.HasType fields ts) (type : UInt8) (size expand : ℕ)
    (h : 2*(encodeAll fields).length ≤ packetPayloadMax) :
    packetWriterFinish (writeAll (packetNew type size expand) fields) = true ∧
      (writeAll (packetNew type size expand) fields).data = encodeAll fields := by
  have hlen : (packetNew type size expand).len = 0 := rfl
  have hlimit : (packetNew type size expand).limit = packetPayloadMax := rfl
  have hb : (packetNew type size expand).Bounded :=
    ⟨by rw [hlimit]; decide, by rw [hlen]; exact Nat.zero_le _, by rw [hlen]; exact Nat.zero_le _⟩
  have hroomy := roomy_of_half fields (packetNew type size expand)
    (by rw [hlen, hlimit, Nat.zero_add]; exact h)
  rcases writeAll_cases fields ts ht _ hb rfl with ⟨_, _, herr, hdata⟩ | ⟨hno, _⟩
  · exact ⟨decide_eq_true herr, hdata⟩
  · exact absurd ⟨by rw [hlen, hlimit]; omega, hroomy⟩ hno

/-- Writing and reading. Whatever an empty packet has been filled with is read back from it. What
has been read from a buffer under the limit of the packet is written back byte by byte exactly if
there is room for each field when its turn comes. -/
theorem written_back_iff_roomy (packet : PacketStruct) (hempty : packet.data = [])
    (herr : packet.error = .none) (hlimit : packet.limit ≤ sizeMax) (ts : List FieldType) :
    (∀ fields, List.Forall₂ Field.HasType fields ts →
      packetWriterFinish (writeAll packet fields) = true →
      (readAll ts (packetReaderInit (writeAll packet fields).data)).1 = fields ∧
      (packetReaderFinish
        (readAll ts (packetReaderInit (writeAll packet fields).data)).2).1 = true) ∧
    ∀ buffer : List UInt8, buffer.length ≤ packet.limit →
      (packetReaderFinish (readAll ts (packetReaderInit buffer)).2).1 = true →
      ((writeAll packet (readAll ts (packetReaderInit buffer)).1).data = buffer ↔
        packet.Roomy (readAll ts (packetReaderInit buffer)).1) := by
  have hlen : packet.len = 0 := congrArg List.length hempty
  have hb : packet.Bounded := ⟨hlimit, by omega, by omega⟩
  constructor
  · intro fields ht hfinish
    have hnone : (writeAll packet fields).error = .none := of_decide_eq_true hfinish
    rcases writeAll_cases fields ts ht packet hb herr with ⟨hfits, _, _, hdata⟩ | ⟨_, hno, _⟩
    · rw [hempty, List.nil_append] at hdata
      rw [hdata]
      exact (readAll_finish ts (encodeAll fields) (by omega) fields).mpr ⟨ht, rfl⟩
    · exact absurd hnone hno
  · intro buffer hfits hfinish
    obtain ⟨ht, hbuffer⟩ := (readAll_finish ts buffer (hfits.trans hlimit) _).mp ⟨rfl, hfinish⟩
    generalize (readAll ts (packetReaderInit buffer)).1 = fields at ht hbuffer ⊢
    rcases writeAll_cases fields ts ht packet hb herr with
      ⟨_, hroomy, _, hdata⟩ | ⟨hno, _, hshort⟩
    · rw [hempty, List.nil_append, ← hbuffer] at hdata
      exact iff_of_true hdata hroomy
    · rw [← hbuffer, hlen, Nat.zero_add] at hno hshort
      refine iff_of_false (fun hdata => ?_) fun hroomy => hno ⟨hfits, hroomy⟩
      have hsame : (writeAll packet fields).len = buffer.length := congrArg List.length hdata
      omega

/-- A word, a string and a block of bytes, in a packet that has to grow for them. -/
theorem written_back_iff_roomy_growing :
    ((readAll [.int16, .cstring 4, .bytes 5] (packetReaderInit
        (writeAll (packetWriterSetLimit (packetNew 0 4 4) 16)
          [.int16 (-2), .cstring [104, 105], .bytes [1, 2, 3, 4, 5]]).data)).1 =
      [.int16 (-2), .cstring [104, 105], .bytes [1, 2, 3, 4, 5]]) ∧
    (writeAll (packetWriterSetLimit (packetNew 0 4 4) 16)
      (readAll [.int16, .cstring 4, .bytes 5]
        (packetReaderInit [255, 254, 104, 105, 0, 1, 2, 3, 4, 5])).1).data =
      [255, 254, 104, 105, 0, 1, 2, 3, 4, 5] := by
  have h := written_back_iff_roomy (packetWriterSetLimit (packetNew 0 4 4) 16) rfl rfl (by decide)
    [.int16, .cstring 4, .bytes 5]
  constructor
  · refine (h.1 _ (.cons (.int16 (-2)) (.cons ?_ (.cons (.bytes [1, 2, 3, 4, 5]) .nil)))
      (by decide)).1
    exact .cstring [104, 105] 4 (by decide) (by decide)
  · exact (h.2 _ (by decide) (by decide)).mpr (by decide)

/-- Two blocks of five bytes do not go into a packet of six bytes that may grow to ten: the second
one needs four bytes more than there are, but is refused because it has five. -/
theorem not_written_back :
    ¬∀ (packet : PacketStruct) (ts : List FieldType) (buffer : List UInt8),
      packet.data = [] → packet.error = .none → packet.limit ≤ sizeMax →
      buffer.length ≤ packet.limit →
      (packetReaderFinish (readAll ts (packetReaderInit buffer)).2).1 = true →
      (writeAll packet (readAll ts (packetReaderInit buffer)).1).data = buffer := by
  intro h
  have hback := h (packetWriterSetLimit (packetNew 0 6 0) 10) [.bytes 5, .bytes 5]
    [1, 2, 3, 4, 5, 6, 7, 8, 9, 10] rfl rfl (by decide) (by decide) (by decide)
  revert hback
  decide

end LibAtrinik.Packet

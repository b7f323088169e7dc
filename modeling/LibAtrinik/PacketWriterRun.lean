import LibAtrinik.PacketRoundTrip

namespace LibAtrinik.Packet

section Code

/-- The calls of `packet_writer_write_*`, each with data that it may read. -/
inductive Write where
  | field (v : Field) (t : FieldType) (typed : v.HasType t)
  | stringN (data : List UInt8) (len : ℕ) (fits : len ≤ data.length)
  | string (data : List UInt8)
  | cstringN (data : List UInt8) (len : ℕ) (fits : len ≤ data.length)
  | packet (src : PacketStruct)

def Write.perform (packet : PacketStruct) : Write → PacketStruct
  | .field v _ _ => v.write packet
  | .stringN data len _ => packetWriterWriteStringN packet data len
  | .string data => packetWriterWriteString packet data
  | .cstringN data len _ => packetWriterWriteCstringN packet data len
  | .packet src => packetWriterWritePacket packet src

/-- The bytes that a write is to append. -/
def Write.encoding : Write → List UInt8
  | .field v _ _ => v.encode
  | .stringN data len _ => data.take len
  | .string data => data.takeWhile (· ≠ 0)
  | .cstringN data len _ => data.take len ++ [0]
  | .packet src => src.data

inductive WriterCall where
  | write (w : Write)
  | mark
  | rollback (i : ℕ)
  | delete (pos len : UInt64)
  | setLimit (limit : UInt64)
  | enableNdelay

/-- A packet and the marks that have been taken. -/
structure WriterState where
  packet : PacketStruct
  marks : List PacketWriterMark := []

/-- `none` when there is no such mark, or when the call does not return. -/
def WriterState.call (s : WriterState) : WriterCall → Option WriterState
  | .write w => some { s with packet := w.perform s.packet }
  | .mark => some { s with marks := s.marks ++ [packetWriterMark s.packet] }
  | .rollback i => do
    let mark ← s.marks[i]?
    let packet ← packetWriterRollback s.packet mark
    some { s with packet := packet }
  | .delete pos len => some { s with packet := packetDelete s.packet pos.toNat len.toNat }
  | .setLimit limit => some { s with packet := packetWriterSetLimit s.packet limit.toNat }
  | .enableNdelay => some { s with packet := packetEnableNdelay s.packet }

def WriterState.calls (s : WriterState) (calls : List WriterCall) : Option WriterState :=
  calls.foldlM WriterState.call s

/-- A packet as `packet_new` returns it. -/
def WriterState.new (type : UInt8) (size expand : UInt64) : WriterState :=
  { packet := packetNew type size.toNat expand.toNat }

end Code

/-- The write appended its bytes. -/
def Write.Succeeds (packet : PacketStruct) (w : Write) : Prop :=
  (w.perform packet).error = .none ∧ (w.perform packet).data = packet.data ++ w.encoding

/-- The write left the data as they were. -/
def Write.Fails (packet : PacketStruct) (w : Write) : Prop :=
  (w.perform packet).error ≠ .none ∧ (w.perform packet).data = packet.data

/-- What a write asks of the packet. -/
theorem perform_eq (packet : PacketStruct) (hempty : packetAppend packet [] = packet) (w : Write) :
    w.perform packet = packetAppend packet w.encoding ∨
      (sizeMax < w.encoding.length ∧ w.perform packet = { packet with error := .sizeOverflow }) := by
  have hstring (data : List UInt8) (len : ℕ) :
      packetWriterWriteStringN packet data len = packetAppend packet (data.take len) := by
    unfold packetWriterWriteStringN
    split_ifs with h
    · rw [h, List.take_zero, hempty]
    · rfl
  -- all writers append their bytes by `packet_append`, apart from their own checks
  cases w with
  | field v t typed => exact write_eq packet hempty v t typed
  | stringN data len fits => exact Or.inl (hstring data len)
  | string data =>
    left
    have htake : data.take (data.takeWhile (· ≠ 0)).length = data.takeWhile (· ≠ 0) :=
      (List.prefix_iff_eq_take.mp (List.takeWhile_prefix _)).symm
    show packetWriterWriteString packet data = _
    rw [packetWriterWriteString, hstring, htake]
    rfl
  | cstringN data len fits =>
    show packetWriterWriteCstringN packet data len = packetAppend packet (data.take len ++ [0]) ∨
      (_ ∧ packetWriterWriteCstringN packet data len = _)
    unfold packetWriterWriteCstringN
    split_ifs with h
    · -- the terminator would make the length wrap around
      right
      refine ⟨?_, rfl⟩
      show sizeMax < (data.take len ++ [0]).length
      rw [List.length_append, List.length_take, List.length_singleton]
      omega
    · exact Or.inl rfl
  | packet src =>
    left
    show packetWriterWriteBytes packet src.data = packetAppend packet src.data
    unfold packetWriterWriteBytes
    split_ifs with h
    · rw [List.length_eq_zero_iff.mp h, hempty]
    · rfl

/-- After an error a write changes at most the error. -/
theorem perform_error (packet : PacketStruct) (herr : packet.error ≠ .none) (w : Write) :
    ∃ error, error ≠ .none ∧ w.perform packet = { packet with error := error } := by
  rcases perform_eq packet (packetAppend_error packet [] herr) w with h | ⟨_, h⟩
  · rw [h, packetAppend_error packet _ herr]
    exact ⟨packet.error, herr, rfl⟩
  · exact ⟨.sizeOverflow, fun he => (nomatch he), h⟩

/-- Before an error a write appends its bytes exactly if the limit admits them and there is room;
else it changes only the error. -/
theorem perform_cases (packet : PacketStruct) (hb : packet.Bounded) (herr : packet.error = .none)
    (w : Write) :
    (packet.len+w.encoding.length ≤ packet.limit ∧ packet.HasRoom w.encoding.length ∧
      w.perform packet = packet.appended w.encoding) ∨
    (¬(packet.len+w.encoding.length ≤ packet.limit ∧ packet.HasRoom w.encoding.length) ∧
      ∃ error, error ≠ .none ∧ w.perform packet = { packet with error := error }) := by
  rcases perform_eq packet (packetAppend_nil packet hb herr) w with h | ⟨hlong, h⟩
  · rw [h]
    exact packetAppend_cases packet hb herr w.encoding
  · right
    have hlimit := hb.limit
    exact ⟨fun hfit => by omega, .sizeOverflow, fun he => (nomatch he), h⟩

/-- A write succeeds or fails, and a packet that was bounded still is. -/
theorem perform_spec (packet : PacketStruct) (hb : packet.Bounded) (w : Write) :
    (w.perform packet).Bounded ∧
      (packet.error = .none ∧ w.Succeeds packet ∨ w.Fails packet) := by
  unfold Write.Succeeds Write.Fails
  by_cases herr : packet.error = .none
  · rcases perform_cases packet hb herr w with ⟨hfit, _, h⟩ | ⟨_, error, hne, h⟩
    · rw [h]
      exact ⟨hb.appended _ hfit, Or.inl ⟨herr, herr, rfl⟩⟩
    · rw [h]
      exact ⟨⟨hb.limit, hb.len_le_size, hb.len_le_limit⟩, Or.inr ⟨hne, rfl⟩⟩
  · obtain ⟨error, hne, h⟩ := perform_error packet herr w
    rw [h]
    exact ⟨⟨hb.limit, hb.len_le_size, hb.len_le_limit⟩, Or.inr ⟨hne, rfl⟩⟩

/-- Dropping data keeps a packet bounded. -/
theorem PacketStruct.Bounded.shorten {packet : PacketStruct} (hb : packet.Bounded)
    (data : List UInt8) (hshort : data.length ≤ packet.data.length) :
    PacketStruct.Bounded { packet with data := data } where
  limit := hb.limit
  len_le_size := hshort.trans hb.len_le_size
  len_le_limit := hshort.trans hb.len_le_limit

theorem packetDelete_cases (packet : PacketStruct) (pos len : ℕ) :
    (packet.len < pos+len ∧ packetDelete packet pos len = packet) ∨
    (pos+len ≤ packet.len ∧ packetDelete packet pos len =
      { packet with data := packet.data.take pos ++ packet.data.drop (pos+len) }) := by
  unfold packetDelete
  split_ifs with h
  · exact Or.inl ⟨by omega, rfl⟩
  · exact Or.inr ⟨by omega, rfl⟩

theorem packetWriterRollback_some (writer packet : PacketStruct) (mark : PacketWriterMark) :
    packetWriterRollback writer mark = some packet ↔
      mark.pos ≤ writer.len ∧ packet = { writer with data := writer.data.take mark.pos } := by
  unfold packetWriterRollback
  split_ifs with h
  · simp only [Option.some.injEq, h, true_and, eq_comm]
  · simp only [h, false_and]

theorem call_rollback (s t : WriterState) (i : ℕ) :
    s.call (.rollback i) = some t ↔ ∃ mark, s.marks[i]? = some mark ∧ mark.pos ≤ s.packet.len ∧
      t = { s with packet := { s.packet with data := s.packet.data.take mark.pos } } := by
  show (s.marks[i]?.bind fun mark => (packetWriterRollback s.packet mark).bind fun packet =>
    some { s with packet := packet }) = some t ↔ _
  simp only [Option.bind_eq_some_iff, packetWriterRollback_some, Option.some.injEq]
  constructor
  · rintro ⟨mark, hmark, _, ⟨hlen, rfl⟩, rfl⟩
    exact ⟨mark, hmark, hlen, rfl⟩
  · rintro ⟨mark, hmark, hlen, rfl⟩
    exact ⟨mark, hmark, _, ⟨hlen, rfl⟩, rfl⟩

/-- Every call keeps a packet bounded and keeps it from losing an error. -/
theorem call_spec (s t : WriterState) (hb : s.packet.Bounded) (c : WriterCall)
    (h : s.call c = some t) :
    t.packet.Bounded ∧ (s.packet.error ≠ .none → t.packet.error ≠ .none) := by
  cases c with
  | write w =>
    obtain rfl := Option.some.inj h
    obtain ⟨hb', hdone⟩ := perform_spec s.packet hb w
    refine ⟨hb', fun herr => ?_⟩
    rcases hdone with ⟨hnone, _⟩ | hfails
    · exact absurd hnone herr
    · exact hfails.1
  | mark =>
    obtain rfl := Option.some.inj h
    exact ⟨hb, id⟩
  | rollback i =>
    obtain ⟨mark, _, hlen, rfl⟩ := (call_rollback s t i).mp h
    exact ⟨hb.shorten _ (List.take_sublist _ _).length_le, id⟩
  | delete pos len =>
    obtain rfl := Option.some.inj h
    rcases packetDelete_cases s.packet pos.toNat len.toNat with ⟨_, he⟩ | ⟨hfit, he⟩
    · show (packetDelete _ _ _).Bounded ∧ (_ → (packetDelete _ _ _).error ≠ _)
      rw [he]
      exact ⟨hb, id⟩
    · show (packetDelete _ _ _).Bounded ∧ (_ → (packetDelete _ _ _).error ≠ _)
      rw [he]
      refine ⟨hb.shorten _ ?_, id⟩
      rw [List.length_append, List.length_take, List.length_drop]
      have hlen : s.packet.len = s.packet.data.length := rfl
      omega
  | setLimit limit =>
    obtain rfl := Option.some.inj h
    show (packetWriterSetLimit _ _).Bounded ∧ (_ → (packetWriterSetLimit _ _).error ≠ _)
    unfold packetWriterSetLimit
    have hmax := limit.toNat_lt
    split_ifs with hlow
    · -- a limit below the data is not taken over
      exact ⟨⟨hb.limit, hb.len_le_size, hb.len_le_limit⟩, fun _ he => (nomatch he)⟩
    · refine ⟨⟨?_, hb.len_le_size, Nat.not_lt.mp hlow⟩, id⟩
      show limit.toNat ≤ sizeMax
      unfold sizeMax
      omega
  | enableNdelay =>
    obtain rfl := Option.some.inj h
    exact ⟨⟨hb.limit, hb.len_le_size, hb.len_le_limit⟩, id⟩

theorem bounded_new (type : UInt8) (size expand : UInt64) :
    (WriterState.new type size expand).packet.Bounded where
  limit := show packetPayloadMax ≤ sizeMax by decide
  len_le_size := Nat.zero_le _
  len_le_limit := Nat.zero_le _

theorem calls_cons (s t : WriterState) (c : WriterCall) (calls : List WriterCall) :
    s.calls (c :: calls) = some t ↔ ∃ u, s.call c = some u ∧ u.calls calls = some t := by
  unfold WriterState.calls
  rw [List.foldlM_cons]
  exact Option.bind_eq_some_iff

theorem calls_spec (s t : WriterState) (hb : s.packet.Bounded) (calls : List WriterCall)
    (h : s.calls calls = some t) :
    t.packet.Bounded ∧ (s.packet.error ≠ .none → t.packet.error ≠ .none) := by
  induction calls generalizing s with
  | nil =>
    obtain rfl := Option.some.inj h
    exact ⟨hb, id⟩
  | cons c calls ih =>
    obtain ⟨u, hu, ht⟩ := (calls_cons s t c calls).mp h
    obtain ⟨hb', herr⟩ := call_spec s u hb c hu
    obtain ⟨hb'', herr'⟩ := ih u hb' ht
    exact ⟨hb'', herr' ∘ herr⟩

/-- Along the calls that are made from `s` on, each one meets a condition on the state before. -/
def Along (P : WriterState → WriterCall → Prop) : WriterState → List WriterCall → Prop
  | _, [] => True
  | s, c :: calls => P s c ∧ ∀ t, s.call c = some t → Along P t calls

/-- `packet_delete` takes nothing away before the position `n`. -/
def KeepsFromDelete (n : ℕ) (s : WriterState) : WriterCall → Prop
  | .delete pos len => len.toNat = 0 ∨ s.packet.len < pos.toNat+len.toNat ∨ n ≤ pos.toNat
  | _ => True

/-- No rollback goes back before the position `n`. -/
def KeepsFromRollback (n : ℕ) (s : WriterState) : WriterCall → Prop
  | .rollback i => ∀ mark, s.marks[i]? = some mark → n ≤ mark.pos
  | _ => True

/-- The last of the marks that are set in `s` brings the data back as they were, after any calls
that meet the condition. -/
def Restores (P : ℕ → WriterState → WriterCall → Prop) (s : WriterState) : Prop :=
  ∀ marked later t, s.call .mark = some marked → marked.calls later = some t →
    Along (P s.packet.len) marked later →
    ∃ u, t.call (.rollback s.marks.length) = some u ∧ u.packet.data = s.packet.data

theorem call_marks (s t : WriterState) (c : WriterCall) (h : s.call c = some t) :
    s.marks <+: t.marks := by
  cases c with
  | mark =>
    obtain rfl := Option.some.inj h
    exact List.prefix_append ..
  | rollback i =>
    obtain ⟨_, _, _, rfl⟩ := (call_rollback s t i).mp h
    exact List.prefix_refl _
  | write w =>
    obtain rfl := Option.some.inj h
    exact List.prefix_refl _
  | delete pos len =>
    obtain rfl := Option.some.inj h
    exact List.prefix_refl _
  | setLimit limit =>
    obtain rfl := Option.some.inj h
    exact List.prefix_refl _
  | enableNdelay =>
    obtain rfl := Option.some.inj h
    exact List.prefix_refl _

/-- What a call that spares the first `n` bytes leaves of them. -/
theorem call_keeps (s t : WriterState) (hb : s.packet.Bounded) (n : ℕ) (hn : n ≤ s.packet.len)
    (c : WriterCall) (hdelete : KeepsFromDelete n s c) (hrollback : KeepsFromRollback n s c)
    (h : s.call c = some t) :
    n ≤ t.packet.len ∧ t.packet.data.take n = s.packet.data.take n := by
  have hn' : n ≤ s.packet.data.length := hn
  cases c with
  | write w =>
    obtain rfl := Option.some.inj h
    rcases (perform_spec s.packet hb w).2 with ⟨_, _, hdata⟩ | ⟨_, hdata⟩
    · show n ≤ (w.perform s.packet).data.length ∧ _
      rw [hdata, List.length_append, List.take_append_of_le_length hn']
      exact ⟨by omega, rfl⟩
    · show n ≤ (w.perform s.packet).data.length ∧ _
      rw [hdata]
      exact ⟨hn, rfl⟩
  | mark =>
    obtain rfl := Option.some.inj h
    exact ⟨hn, rfl⟩
  | rollback i =>
    obtain ⟨mark, hmark, hlen, rfl⟩ := (call_rollback s t i).mp h
    have hpos := hrollback mark hmark
    show n ≤ (s.packet.data.take mark.pos).length ∧ (s.packet.data.take mark.pos).take n = _
    rw [List.length_take, List.take_take, Nat.min_eq_left hpos]
    exact ⟨by omega, rfl⟩
  | delete pos len =>
    obtain rfl := Option.some.inj h
    rcases packetDelete_cases s.packet pos.toNat len.toNat with ⟨_, he⟩ | ⟨hfit, he⟩
    · show n ≤ (packetDelete _ _ _).data.length ∧ (packetDelete _ _ _).data.take n = _
      rw [he]
      exact ⟨hn, rfl⟩
    · show n ≤ (packetDelete _ _ _).data.length ∧ (packetDelete _ _ _).data.take n = _
      rw [he]
      have hlen : s.packet.len = s.packet.data.length := rfl
      -- nothing is deleted, the range is not in the packet, or it starts after the first `n` bytes
      rcases hdelete with hzero | hrefused | hafter
      · rw [hzero, Nat.add_zero, List.take_append_drop]
        exact ⟨hn, rfl⟩
      · omega
      · have htake : (s.packet.data.take pos.toNat).length = pos.toNat :=
          List.length_take_of_le (by omega)
        rw [List.length_append, htake, List.take_append_of_le_length (by omega), List.take_take,
          Nat.min_eq_left hafter]
        exact ⟨by omega, rfl⟩
  | setLimit limit =>
    obtain rfl := Option.some.inj h
    have hdata : (packetWriterSetLimit s.packet limit.toNat).data = s.packet.data := by
      unfold packetWriterSetLimit
      split_ifs <;> rfl
    show n ≤ (packetWriterSetLimit _ _).data.length ∧ (packetWriterSetLimit _ _).data.take n = _
    rw [hdata]
    exact ⟨hn, rfl⟩
  | enableNdelay =>
    obtain rfl := Option.some.inj h
    exact ⟨hn, rfl⟩

theorem calls_keep (s t : WriterState) (hb : s.packet.Bounded) (n : ℕ) (hn : n ≤ s.packet.len)
    (calls : List WriterCall)
    (hkeeps : Along (fun s c => KeepsFromDelete n s c ∧ KeepsFromRollback n s c) s calls)
    (h : s.calls calls = some t) :
    n ≤ t.packet.len ∧ t.packet.data.take n = s.packet.data.take n ∧ s.marks <+: t.marks := by
  induction calls generalizing s with
  | nil =>
    obtain rfl := Option.some.inj h
    exact ⟨hn, rfl, List.prefix_refl _⟩
  | cons c calls ih =>
    obtain ⟨u, hu, ht⟩ := (calls_cons s t c calls).mp h
    obtain ⟨⟨hdelete, hrollback⟩, hrest⟩ := hkeeps
    obtain ⟨hn', htake⟩ := call_keeps s u hb n hn c hdelete hrollback hu
    obtain ⟨hn'', htake', hmarks⟩ := ih u (call_spec s u hb c hu).1 hn' (hrest u hu) ht
    exact ⟨hn'', htake'.trans htake, (call_marks s u c hu).trans hmarks⟩

/-- A mark brings the data back unless something before it has been taken away in between. -/
theorem restores (s : WriterState) (hb : s.packet.Bounded) :
    Restores (fun n s c => KeepsFromDelete n s c ∧ KeepsFromRollback n s c) s := by
  intro marked later t hmarked hlater hkeeps
  -- the bytes before the mark and the mark itself outlast the calls that spare them
  obtain rfl := Option.some.inj hmarked
  obtain ⟨hlen, htake, more, hmore⟩ := calls_keep { s with marks := s.marks ++ [packetWriterMark
    s.packet] } t hb s.packet.len le_rfl later hkeeps hlater
  refine ⟨{ t with packet := { t.packet with data := t.packet.data.take s.packet.len } }, ?_, ?_⟩
  · refine (call_rollback t _ _).mpr ⟨packetWriterMark s.packet, ?_, hlen, rfl⟩
    rw [← hmore, List.append_assoc, List.getElem?_append_right le_rfl, Nat.sub_self]
    rfl
  · exact htake.trans List.take_length

/-- Along any run: the data fit below the limit and into what is allocated, a write appends its
bytes or changes no data, an error stays and ends all writing, and a rollback brings the data
back if nothing before the mark has been deleted or rolled back since. -/
theorem writer_atomic (type : UInt8) (size expand : UInt64) (calls : List WriterCall)
    (s : WriterState) (h : (WriterState.new type size expand).calls calls = some s) :
    s.packet.len ≤ s.packet.limit ∧ s.packet.len ≤ s.packet.size ∧
    (∀ w : Write, s.packet.error = .none ∧ w.Succeeds s.packet ∨ w.Fails s.packet) ∧
    (s.packet.error ≠ .none → ∀ later t, s.calls later = some t → t.packet.error ≠ .none ∧
      ∀ w : Write, (w.perform t.packet).data = t.packet.data) ∧
    Restores (fun n s c => KeepsFromDelete n s c ∧ KeepsFromRollback n s c) s := by
  have hb := (calls_spec _ s (bounded_new type size expand) calls h).1
  refine ⟨hb.len_le_limit, hb.len_le_size, fun w => (perform_spec s.packet hb w).2, ?_,
    restores s hb⟩
  intro herr later t hlater
  have hstays := (calls_spec s t hb later hlater).2 herr
  refine ⟨hstays, fun w => ?_⟩
  obtain ⟨_, _, he⟩ := perform_error t.packet hstays w
  rw [he]

/-- A byte as a write of `packet_writer_write_uint8`. -/
def Write.byte (b : UInt8) : Write := .field (.uint8 b) .uint8 (.uint8 b)

/-- A mark after one byte survives a write past the limit, the deletion of what follows it and a
change of the limit. -/
theorem writer_atomic_marked : ∃ s,
    (WriterState.new 7 1 1).calls [.setLimit 3, .write (.byte 5), .mark, .write (.byte 6),
      .delete 1 1, .setLimit 1, .write (.byte 8)] = some s ∧ s.packet.len ≤ s.packet.limit ∧
    s.packet.data = [5] ∧ s.packet.error = .limitExceeded :=
  ⟨_, rfl, (writer_atomic 7 1 1 [.setLimit 3, .write (.byte 5), .mark, .write (.byte 6),
    .delete 1 1, .setLimit 1, .write (.byte 8)] _ rfl).1, by decide, by decide⟩

/-- A mark that an earlier mark has been rolled back past brings back other bytes. -/
theorem stale_mark_restores_others :
    ¬∀ (type : UInt8) (size expand : UInt64) (calls : List WriterCall) (s : WriterState),
      (WriterState.new type size expand).calls calls = some s → Restores KeepsFromDelete s := by
  intro h
  -- the mark after one byte, rolled back past and then rolled back to
  obtain ⟨u, hu, hdata⟩ := h 0 4 0 [.mark, .write (.byte 1)] _ rfl _
    [.rollback 0, .write (.byte 2)] _ rfl rfl ⟨trivial, fun t _ => ⟨trivial, fun _ _ => trivial⟩⟩
  obtain rfl := Option.some.inj hu
  revert hdata
  decide

section Room

/-- Without an error, a write of some bytes succeeds exactly if the limit admits them. -/
def AcceptsWhatFits (s : WriterState) : WriterCall → Prop
  | .write w => s.packet.error = .none → w.encoding ≠ [] →
    (w.Succeeds s.packet ↔ s.packet.len+w.encoding.length ≤ s.packet.limit)
  | _ => True

/-- Without an error, a write of some bytes that the limit admits finds room for all of them
either in what is allocated or between that and the limit. -/
def FindsRoom (s : WriterState) : WriterCall → Prop
  | .write w => s.packet.error = .none → w.encoding ≠ [] →
    s.packet.len+w.encoding.length ≤ s.packet.limit → s.packet.HasRoom w.encoding.length
  | _ => True

theorem acceptsWhatFits_iff (s : WriterState) (hb : s.packet.Bounded) (c : WriterCall) :
    AcceptsWhatFits s c ↔ FindsRoom s c := by
  cases c with
  | write w =>
    refine forall_congr' fun herr => forall_congr' fun _ => ?_
    unfold Write.Succeeds
    rcases perform_cases s.packet hb herr w with ⟨hfit, hroom, h⟩ | ⟨hno, error, hne, h⟩
    · rw [h]
      exact iff_of_true (iff_of_true ⟨herr, rfl⟩ hfit) fun _ => hroom
    · rw [h]
      constructor
      · intro haccepts hfit
        exact absurd (haccepts.mpr hfit).1 hne
      · intro hroom
        exact iff_of_false (fun hdone => hne hdone.1) fun hfit => hno ⟨hfit, hroom hfit⟩
  | _ => exact Iff.rfl

theorem along_congr {P Q : WriterState → WriterCall → Prop}
    (hPQ : ∀ (s : WriterState), s.packet.Bounded → ∀ c, P s c ↔ Q s c) (s : WriterState)
    (hb : s.packet.Bounded) (calls : List WriterCall) : Along P s calls ↔ Along Q s calls := by
  induction calls generalizing s with
  | nil => exact Iff.rfl
  | cons c calls ih =>
    refine and_congr (hPQ s hb c) (forall_congr' fun t => forall_congr' fun ht => ?_)
    exact ih t (call_spec s t hb c ht).1

/-- The writer takes all that fits below the limit along exactly the runs in which every write
finds room in one piece: what is free in the allocated bytes and what the limit leaves above them
are not added up. -/
theorem accepts_iff_findsRoom (type : UInt8) (size expand : UInt64) (calls : List WriterCall) :
    Along AcceptsWhatFits (WriterState.new type size expand) calls ↔
      Along FindsRoom (WriterState.new type size expand) calls :=
  along_congr acceptsWhatFits_iff _ (bounded_new type size expand) calls

/-- Two more bytes after one byte of two allocated ones, with a limit of three. -/
theorem fitting_write_refused :
    ¬∀ (type : UInt8) (size expand : UInt64) (calls : List WriterCall),
      Along AcceptsWhatFits (WriterState.new type size expand) calls := by
  intro h
  obtain ⟨_, hlimit⟩ := h 0 2 0 [.setLimit 3, .write (.byte 1),
    .write (.field (.uint16 2) .uint16 (.uint16 2))]
  obtain ⟨_, hbyte⟩ := hlimit _ rfl
  obtain ⟨haccepts, _⟩ := hbyte _ rfl
  have hdone := (haccepts rfl (by decide)).mpr (by decide)
  exact absurd hdone.1 (by decide)

end Room

section Copy

/-- A copy that agrees with its original in all that is sent. -/
def Faithful (packet cp : PacketStruct) : Prop :=
  cp.data = packet.data ∧ cp.type = packet.type ∧ cp.limit = packet.limit ∧
    cp.ndelay = packet.ndelay ∧ cp.error = packet.error

/-- Copies are faithful but for packets with an error: the error is set before the data are
written, so that no data are. -/
theorem dup_faithful_iff (type : UInt8) (size expand : UInt64) (calls : List WriterCall)
    (s : WriterState) (h : (WriterState.new type size expand).calls calls = some s) :
    Faithful s.packet (packetDup s.packet) ↔ s.packet.error = .none ∨ s.packet.len = 0 := by
  have hb := (calls_spec _ s (bounded_new type size expand) calls h).1
  let cp : PacketStruct := { packetNew s.packet.type s.packet.size s.packet.expand with
    ndelay := s.packet.ndelay, limit := s.packet.limit, error := s.packet.error }
  have hdup : packetDup s.packet = packetWriterWriteBytes cp s.packet.data := rfl
  unfold Faithful
  rw [hdup, packetWriterWriteBytes]
  by_cases hzero : s.packet.data.length = 0
  · rw [if_pos hzero]
    exact iff_of_true ⟨(List.length_eq_zero_iff.mp hzero).symm, rfl, rfl, rfl, rfl⟩ (Or.inr hzero)
  rw [if_neg hzero]
  by_cases herr : s.packet.error = .none
  · -- what the original holds fits into the copy, which is as large
    have hcp : cp.Bounded := ⟨hb.limit, Nat.zero_le _, Nat.zero_le _⟩
    have hfree : s.packet.data.length ≤ cp.size-cp.len := hb.len_le_size
    have hfit : cp.len+s.packet.data.length ≤ cp.limit := by
      rw [show cp.len = 0 from rfl, Nat.zero_add]
      exact hb.len_le_limit
    rcases packetAppend_cases cp hcp herr s.packet.data with ⟨_, _, he⟩ | ⟨hno, _⟩
    · rw [he]
      exact iff_of_true ⟨rfl, rfl, rfl, rfl, rfl⟩ (Or.inl herr)
    · exact absurd ⟨hfit, Or.inl hfree⟩ hno
  · -- the copy has the error of the original before the data are written to it
    rw [packetAppend_error cp s.packet.data herr]
    refine iff_of_false (fun hfaithful => ?_) (not_or.mpr ⟨herr, hzero⟩)
    exact hzero (congrArg List.length hfaithful.1.symm)

/-- A packet that has been written to, shortened and marked as urgent. -/
theorem dup_faithful_iff_urgent : ∃ s,
    (WriterState.new 7 1 8).calls [.write (.byte 5), .mark, .write (.byte 6), .rollback 0,
      .enableNdelay] = some s ∧ s.packet.data = [5] ∧ Faithful s.packet (packetDup s.packet) :=
  ⟨_, rfl, by decide, (dup_faithful_iff 7 1 8 [.write (.byte 5), .mark, .write (.byte 6),
    .rollback 0, .enableNdelay] _ rfl).mpr (Or.inl (by decide))⟩

/-- The copy of a packet that was full when another byte came holds none of its bytes. -/
theorem dup_drops_data :
    ¬∀ (type : UInt8) (size expand : UInt64) (calls : List WriterCall) (s : WriterState),
      (WriterState.new type size expand).calls calls = some s →
        Faithful s.packet (packetDup s.packet) := by
  intro h
  have hfaithful := h 0 1 0 [.setLimit 1, .write (.byte 1), .write (.byte 2)] _ rfl
  exact absurd hfaithful.1 (by decide)

end Copy

end LibAtrinik.Packet

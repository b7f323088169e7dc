import LibAtrinik.PacketScopeBounds

/-! Packet readers as they go about memory: every byte of the buffer that an operation looks at is
loaded, and a load outside the buffer has no result. With the mirror of the position of readers
that were made by `packet_reader_init_cursor`. -/
namespace LibAtrinik.Packet

section Code

/-- The memory that a reader is given. When the pointer is null, only the length of `bytes`
counts. -/
structure Buffer where
  bytes : List UInt8
  null : Bool
  fits : bytes.length ≤ sizeMax

/-- `packet_reader_t` without its scope; `position` is what `*position` holds. -/
structure CursorReader where
  reader : PacketReader
  null : Bool
  position : Option ℕ := none

/-- The bytes from `offset` on, as a function may look at them. -/
def CursorReader.load (r : CursorReader) (offset n : ℕ) : Option (List UInt8) :=
  if r.null = false ∧ offset+n ≤ r.reader.data.length then
    some ((r.reader.data.drop offset).take n)
  else none

/-- `packet_reader_init_at`. -/
def cursorInitAt (buffer : Buffer) (pos : ℕ) : CursorReader :=
  let reader : PacketReader := { data := buffer.bytes, pos := pos }
  if (buffer.null = true ∧ buffer.bytes.length ≠ 0) ∨ pos > buffer.bytes.length then
    { reader := packetReaderFail { reader with pos := 0 } .invalidEncoding, null := buffer.null }
  else { reader := reader, null := buffer.null }

/-- `packet_reader_init_cursor`. -/
def cursorInitCursor (buffer : Buffer) (position : ℕ) : CursorReader :=
  { cursorInitAt buffer position with position := some position }

/-- `packet_reader_fail`. -/
def cursorFail (r : CursorReader) (error : PacketError) : CursorReader :=
  { r with reader := packetReaderFail r.reader error }

def cursorAdvance (r : CursorReader) (n : ℕ) : CursorReader :=
  { r with
    reader := { r.reader with pos := r.reader.pos+n }
    position := r.position.map fun _ => r.reader.pos+n }

/-- `packet_reader_take`: the pointer that it returns, as an offset, or null. -/
def cursorTake (r : CursorReader) (len : ℕ) : Option ℕ × CursorReader :=
  if r.reader.error ≠ .none then (none, r)
  else if len > packetReaderRemaining r.reader then (none, cursorFail r .truncated)
  else if len = 0 then (if r.null = true then none else some 0, r)
  else (some r.reader.pos, cursorAdvance r len)

/-- The bytes behind the pointer that `packet_reader_take` returns, if it is not null. -/
def cursorTaken (r : CursorReader) (len : ℕ) : Option (List UInt8 × CursorReader) :=
  let taken := cursorTake r len
  match taken.1 with
  | none => some ([], taken.2)
  | some offset => (taken.2.load offset len).map fun bytes => (bytes, taken.2)

/-- `packet_reader_skip`. -/
def cursorSkip (r : CursorReader) (len : ℕ) : Bool × CursorReader :=
  if len = 0 ∧ r.reader.error = .none then (true, r)
  else
    let taken := cursorTake r len
    (taken.1.isSome, taken.2)

/-- `packet_reader_read_string_view`. -/
def cursorReadStringView (r : CursorReader) (maxLen : ℕ) : Option (List UInt8 × CursorReader) :=
  if r.reader.error ≠ .none then some ([], r)
  else
    let remaining := packetReaderRemaining r.reader
    if remaining = 0 then some ([], cursorFail r .truncated)
    else
      let searchLen := min remaining (maxLen+if maxLen ≠ sizeMax then 1 else 0)
      (r.load r.reader.pos searchLen).bind fun searched =>
        match searched.findIdx? (· = 0) with
        | none =>
          some ([], cursorFail r (if remaining > maxLen then .limitExceeded else .truncated))
        | some len =>
          if len > maxLen then some ([], cursorFail r .limitExceeded)
          else (r.load r.reader.pos len).map fun view => (view, cursorAdvance r (len+1))

/-- `packet_reader_read_string_bounded`. -/
def cursorReadStringBounded (r : CursorReader) (destSize maxLen : ℕ) :
    Option ((Bool × List UInt8) × CursorReader) :=
  (cursorReadStringView r maxLen).map fun view =>
    if view.2.reader.error ≠ .none then ((false, []), view.2)
    else if view.1.length ≥ destSize then ((false, []), cursorFail view.2 .limitExceeded)
    else ((true, view.1), view.2)

/-- The functions that read a count of `n` bytes. -/
def cursorReadCount (r : CursorReader) (n maximum : ℕ) :
    Option ((Bool × List UInt8) × CursorReader) :=
  (cursorTaken r n).map fun taken =>
    if taken.2.reader.error ≠ .none then ((false, []), taken.2)
    else if BigEndian.value taken.1 > maximum then ((false, []), cursorFail taken.2 .limitExceeded)
    else ((true, taken.1), taken.2)

/-- `packet_reader_finish`. -/
def cursorFinish (r : CursorReader) : Bool × CursorReader :=
  let r :=
    if r.reader.error = .none ∧ r.reader.pos ≠ r.reader.data.length then cursorFail r .trailingData
    else r
  (r.reader.error = .none, r)

/-- The operations, with the numbers as the bytes that they are read from. `none` is a load outside
the buffer. -/
def Operation.cursor (r : CursorReader) : Operation → Option ((Bool × List UInt8) × CursorReader)
  | .take len => (cursorTaken r len).map fun taken =>
    ((taken.2.reader.error = .none, taken.1), taken.2)
  | .skip len =>
    let skipped := cursorSkip r len
    some ((skipped.1, []), skipped.2)
  | .readStringView maxLen => (cursorReadStringView r maxLen).map fun view =>
    ((view.2.reader.error = .none, view.1), view.2)
  | .readStringBounded destSize maxLen => cursorReadStringBounded r destSize maxLen
  | .readCount n maximum => cursorReadCount r n maximum
  | .finish =>
    let finished := cursorFinish r
    some ((finished.1, []), finished.2)
  | .setError error => some ((false, []), cursorFail r error)

/-- The ways to make a reader; `packet_reader_init` is the first one at position zero. -/
inductive ReaderInit where
  | start (pos : ℕ)
  | cursor (position : ℕ)

def ReaderInit.reader (buffer : Buffer) : ReaderInit → CursorReader
  | .start pos => cursorInitAt buffer pos
  | .cursor position => cursorInitCursor buffer position

/-- One operation after the other. -/
def CursorReader.after (r : CursorReader) : List Operation → Option CursorReader
  | [] => some r
  | operation :: operations => (operation.cursor r).bind fun done => done.2.after operations

end Code

/-- The reader is inside its data, which is empty behind a null pointer unless there is an error. -/
structure CursorReader.Sound (r : CursorReader) : Prop where
  inside : r.reader.Inside
  fits : r.reader.data.length ≤ sizeMax
  null : r.null = true → r.reader.error = .none → r.reader.data = []

theorem sound_initAt (buffer : Buffer) (pos : ℕ) : (cursorInitAt buffer pos).Sound := by
  unfold cursorInitAt
  dsimp only
  split_ifs with h
  · exact ⟨Nat.zero_le _, buffer.fits, fun _ he => nomatch he⟩
  · push Not at h
    exact ⟨h.2, buffer.fits, fun hnull _ => List.length_eq_zero_iff.mp (h.1 hnull)⟩

theorem sound_initCursor (buffer : Buffer) (position : ℕ) :
    (cursorInitCursor buffer position).Sound :=
  let h := sound_initAt buffer position
  ⟨h.inside, h.fits, h.null⟩

variable {r : CursorReader}

/-- What is left of the data can be loaded. -/
theorem CursorReader.Sound.load (h : r.Sound) (herr : r.reader.error = .none) (n : ℕ)
    (hpos : 0 < n) (hn : n ≤ packetReaderRemaining r.reader) :
    r.load r.reader.pos n = some ((r.reader.data.drop r.reader.pos).take n) := by
  rw [remaining_of_inside h.inside] at hn
  have hnull : r.null = false := by
    cases hnull : r.null with
    | false => rfl
    | true =>
      have hempty := congrArg List.length (h.null hnull herr)
      rw [List.length_nil] at hempty
      omega
  exact if_pos ⟨hnull, by omega⟩

/-- The cursor has done what the function without memory does, and the mirror has followed. -/
structure Mirrors (r r' : CursorReader) (reader : PacketReader) : Prop where
  reader : r'.reader = reader
  null : r'.null = r.null
  position : (r'.reader.pos = r.reader.pos ∧ r'.position = r.position) ∨
    r'.position = r.position.map fun _ => r'.reader.pos

theorem mirrors_self (r : CursorReader) : Mirrors r r r.reader := ⟨rfl, rfl, Or.inl ⟨rfl, rfl⟩⟩

theorem mirrors_fail (r : CursorReader) (error : PacketError) :
    Mirrors r (cursorFail r error) (packetReaderFail r.reader error) := by
  refine ⟨rfl, rfl, Or.inl ⟨?_, rfl⟩⟩
  show (packetReaderFail r.reader error).pos = r.reader.pos
  unfold packetReaderFail
  split_ifs <;> rfl

theorem mirrors_advance (r : CursorReader) (n : ℕ) :
    Mirrors r (cursorAdvance r n) { r.reader with pos := r.reader.pos+n } :=
  ⟨rfl, rfl, Or.inr rfl⟩

/-- A second step after which only an error may have changed. -/
theorem Mirrors.fail {r' : CursorReader} {reader : PacketReader} (h : Mirrors r r' reader)
    (error : PacketError) : Mirrors r (cursorFail r' error) (packetReaderFail reader error) := by
  obtain ⟨hreader, hnull, hposition⟩ := mirrors_fail r' error
  refine ⟨by rw [hreader, h.reader], by rw [hnull, h.null], ?_⟩
  have hpos : (cursorFail r' error).reader.pos = r'.reader.pos := by
    rw [hreader]
    unfold packetReaderFail
    split_ifs <;> rfl
  rw [hpos]
  exact h.position

theorem cursorTake_spec (r : CursorReader) (len : ℕ) :
    Mirrors r (cursorTake r len).2 (packetReaderTake r.reader len).2 ∧
    (len ≠ 0 → (cursorTake r len).1.isSome = (packetReaderTake r.reader len).1.isSome) := by
  unfold cursorTake packetReaderTake
  by_cases herr : r.reader.error ≠ .none
  · rw [if_pos herr, if_pos herr]
    exact ⟨mirrors_self r, fun _ => rfl⟩
  rw [if_neg herr, if_neg herr]
  by_cases hlong : len > packetReaderRemaining r.reader
  · rw [if_pos hlong, if_pos hlong]
    exact ⟨mirrors_fail r .truncated, fun _ => rfl⟩
  rw [if_neg hlong, if_neg hlong]
  by_cases hzero : len = 0
  · rw [if_pos hzero, hzero]
    exact ⟨mirrors_self r, fun hne => absurd rfl hne⟩
  · rw [if_neg hzero]
    exact ⟨mirrors_advance r len, fun _ => rfl⟩

/-- The bytes that are taken are all in the buffer. -/
theorem cursorTaken_spec (h : r.Sound) (len : ℕ) : ∃ r',
    cursorTaken r len = some ((packetReaderTake r.reader len).1.getD [], r') ∧
      Mirrors r r' (packetReaderTake r.reader len).2 ∧
      (r'.reader.error = .none ↔ (packetReaderTake r.reader len).1.isSome = true) := by
  obtain ⟨hmirrors, _⟩ := cursorTake_spec r len
  refine ⟨(cursorTake r len).2, ?_, hmirrors, ?_⟩
  · unfold cursorTaken cursorTake packetReaderTake
    by_cases herr : r.reader.error ≠ .none
    · rw [if_pos herr, if_pos herr]
      rfl
    rw [if_neg herr, if_neg herr]
    by_cases hlong : len > packetReaderRemaining r.reader
    · rw [if_pos hlong, if_pos hlong]
      rfl
    rw [if_neg hlong, if_neg hlong]
    by_cases hzero : len = 0
    · rw [if_pos hzero, hzero, List.take_zero]
      cases hnull : r.null with
      | true => rfl
      | false =>
        have hload : r.load 0 0 = some [] := if_pos ⟨hnull, Nat.zero_le _⟩
        rw [if_neg (by decide)]
        dsimp only
        rw [hload]
        rfl
    · rw [if_neg hzero]
      have hload := h.load (not_not.mp herr) len (Nat.pos_of_ne_zero hzero) (Nat.not_lt.mp hlong)
      show ((cursorAdvance r len).load r.reader.pos len).map _ = _
      rw [show (cursorAdvance r len).load r.reader.pos len = r.load r.reader.pos len from rfl, hload]
      rfl
  · rw [hmirrors.reader]
    unfold packetReaderTake
    by_cases herr : r.reader.error ≠ .none
    · rw [if_pos herr]
      exact iff_of_false herr (fun hsome => nomatch hsome)
    rw [if_neg herr]
    by_cases hlong : len > packetReaderRemaining r.reader
    · rw [if_pos hlong]
      refine iff_of_false (fun he => ?_) (fun hsome => nomatch hsome)
      rw [packetReaderFail, if_pos (not_not.mp herr)] at he
      exact nomatch he
    · rw [if_neg hlong]
      exact iff_of_true (not_not.mp herr) rfl

/-- The search for the end of a string looks at nothing outside the buffer. -/
theorem cursorReadStringView_spec (h : r.Sound) (maxLen : ℕ) : ∃ r',
    cursorReadStringView r maxLen = some ((packetReaderReadStringView r.reader maxLen).1, r') ∧
      Mirrors r r' (packetReaderReadStringView r.reader maxLen).2 := by
  unfold cursorReadStringView packetReaderReadStringView
  by_cases herr : r.reader.error ≠ .none
  · rw [if_pos herr, if_pos herr]
    exact ⟨r, rfl, mirrors_self r⟩
  rw [if_neg herr, if_neg herr]
  dsimp only
  by_cases hempty : packetReaderRemaining r.reader = 0
  · rw [if_pos hempty, if_pos hempty]
    exact ⟨_, rfl, mirrors_fail r .truncated⟩
  rw [if_neg hempty, if_neg hempty]
  set searchLen := min (packetReaderRemaining r.reader) (maxLen+if maxLen ≠ sizeMax then 1 else 0)
    with hsearch
  have hle : searchLen ≤ packetReaderRemaining r.reader := Nat.min_le_left ..
  have hpos : 0 < searchLen := by
    have hmax : 0 < sizeMax := by decide
    rw [hsearch]
    split_ifs <;> omega
  rw [h.load (not_not.mp herr) searchLen hpos hle, Option.bind_some]
  cases hfound : ((r.reader.data.drop r.reader.pos).take searchLen).findIdx? (· = 0) with
  | none => exact ⟨_, rfl, mirrors_fail r _⟩
  | some len =>
    dsimp only
    by_cases hlong : len > maxLen
    · rw [if_pos hlong, if_pos hlong]
      exact ⟨_, rfl, mirrors_fail r .limitExceeded⟩
    rw [if_neg hlong, if_neg hlong]
    obtain ⟨_, _, hlt, _, _⟩ := (findIdx?_terminator _ _ _).mp hfound
    refine ⟨cursorAdvance r (len+1), ?_, mirrors_advance r (len+1)⟩
    by_cases hzero : len = 0
    · -- an empty string, whose pointer need only be the one to its end
      have hload : r.load r.reader.pos len = some [] := by
        have hone := h.load (not_not.mp herr) searchLen hpos hle
        unfold CursorReader.load at hone ⊢
        split_ifs at hone with hin
        rw [if_pos ⟨hin.1, by omega⟩, hzero, List.take_zero]
      rw [hload, hzero, List.take_zero]
      rfl
    · rw [h.load (not_not.mp herr) len (Nat.pos_of_ne_zero hzero) (by omega)]
      rfl

/-- What the operations come to without a scope, by the functions of the reader. -/
theorem run_take (reader : PacketReader) (len : ℕ) : (Operation.take len).run reader =
    (((packetReaderTake reader len).1.isSome, (packetReaderTake reader len).1.getD []),
      (packetReaderTake reader len).2) := by
  obtain ⟨hvalue, hreader⟩ := scopedTake_erase reader len
  rw [← hvalue, ← hreader]
  rfl

theorem run_skip (reader : PacketReader) (len : ℕ) : (Operation.skip len).run reader =
    if len = 0 ∧ reader.error = .none then ((true, []), reader)
    else (((packetReaderTake reader len).1.isSome, []), (packetReaderTake reader len).2) := by
  obtain ⟨hvalue, hreader⟩ := scopedTake_erase reader len
  rw [← hvalue, ← hreader]
  unfold Operation.run Operation.scoped scopedSkip
  dsimp only
  split_ifs <;> rfl

theorem run_readStringView (reader : PacketReader) (maxLen : ℕ) :
    (Operation.readStringView maxLen).run reader =
      ((decide ((packetReaderReadStringView reader maxLen).2.error = .none),
        (packetReaderReadStringView reader maxLen).1),
        (packetReaderReadStringView reader maxLen).2) := by
  obtain ⟨hvalue, hreader⟩ := scopedReadStringView_erase reader maxLen
  rw [← hvalue, ← hreader]
  rfl

theorem run_readStringBounded (reader : PacketReader) (destSize maxLen : ℕ) :
    (Operation.readStringBounded destSize maxLen).run reader =
      let view := packetReaderReadStringView reader maxLen
      if view.2.error ≠ .none then ((false, []), view.2)
      else if view.1.length ≥ destSize then ((false, []), packetReaderFail view.2 .limitExceeded)
      else ((true, view.1), view.2) := by
  obtain ⟨hvalue, hreader⟩ := scopedReadStringView_erase reader maxLen
  dsimp only
  rw [← hvalue, ← hreader]
  unfold Operation.run Operation.scoped scopedReadStringBounded
  dsimp only
  split_ifs <;> rfl

theorem run_readCount (reader : PacketReader) (n maximum : ℕ) :
    (Operation.readCount n maximum).run reader =
      let taken := packetReaderTake reader n
      if taken.2.error ≠ .none then ((false, []), taken.2)
      else if BigEndian.value (taken.1.getD []) > maximum then
        ((false, []), packetReaderFail taken.2 .limitExceeded)
      else ((true, taken.1.getD []), taken.2) := by
  obtain ⟨hvalue, hreader⟩ := scopedTake_erase reader n
  dsimp only
  rw [← hvalue, ← hreader]
  unfold Operation.run Operation.scoped scopedReadCount
  dsimp only
  split_ifs <;> rfl

theorem cursorSkip_spec (r : CursorReader) (len : ℕ) :
    ((Operation.skip len).run r.reader).1 = ((cursorSkip r len).1, []) ∧
      Mirrors r (cursorSkip r len).2 ((Operation.skip len).run r.reader).2 := by
  obtain ⟨hmirrors, hsome⟩ := cursorTake_spec r len
  rw [run_skip]
  unfold cursorSkip
  by_cases hnothing : len = 0 ∧ r.reader.error = .none
  · rw [if_pos hnothing, if_pos hnothing]
    exact ⟨rfl, mirrors_self r⟩
  rw [if_neg hnothing, if_neg hnothing]
  refine ⟨?_, hmirrors⟩
  by_cases hzero : len = 0
  · have herr : r.reader.error ≠ .none := fun herr => hnothing ⟨hzero, herr⟩
    unfold cursorTake packetReaderTake
    rw [if_pos herr, if_pos herr]
    rfl
  · dsimp only
    rw [hsome hzero]

theorem cursorFinish_spec (r : CursorReader) :
    (Operation.finish.run r.reader).1 = ((cursorFinish r).1, []) ∧
      Mirrors r (cursorFinish r).2 (Operation.finish.run r.reader).2 := by
  unfold Operation.run Operation.scoped scopedFinish cursorFinish
  dsimp only
  by_cases htrailing : r.reader.error = .none ∧ r.reader.pos ≠ r.reader.data.length
  · rw [if_pos htrailing, if_pos htrailing]
    exact ⟨rfl, mirrors_fail r .trailingData⟩
  · rw [if_neg htrailing, if_neg htrailing]
    exact ⟨rfl, mirrors_self r⟩

/-- No operation looks outside the buffer, and each does what it does without memory. -/
theorem operation_cursor (h : r.Sound) (operation : Operation) : ∃ r',
    operation.cursor r = some ((operation.run r.reader).1, r') ∧
      Mirrors r r' (operation.run r.reader).2 := by
  cases operation with
  | take len =>
    obtain ⟨r', he, hmirrors, hsome⟩ := cursorTaken_spec h len
    rw [run_take]
    refine ⟨r', ?_, hmirrors⟩
    show (cursorTaken r len).map _ = _
    have hflag : decide (r'.reader.error = .none) = (packetReaderTake r.reader len).1.isSome := by
      rw [Bool.eq_iff_iff, decide_eq_true_iff, hsome]
    rw [he, Option.map_some, hflag]
  | skip len =>
    obtain ⟨hvalue, hmirrors⟩ := cursorSkip_spec r len
    refine ⟨(cursorSkip r len).2, ?_, hmirrors⟩
    rw [hvalue]
    rfl
  | readStringView maxLen =>
    obtain ⟨r', he, hmirrors⟩ := cursorReadStringView_spec h maxLen
    rw [run_readStringView]
    refine ⟨r', ?_, hmirrors⟩
    show (cursorReadStringView r maxLen).map _ = _
    rw [he, Option.map_some, hmirrors.reader]
  | readStringBounded destSize maxLen =>
    obtain ⟨r', he, hmirrors⟩ := cursorReadStringView_spec h maxLen
    rw [run_readStringBounded]
    show ∃ r'', (cursorReadStringView r maxLen).map _ = _ ∧ _
    rw [he, Option.map_some, hmirrors.reader]
    dsimp only
    split_ifs
    · exact ⟨r', rfl, hmirrors⟩
    · exact ⟨_, rfl, hmirrors.fail .limitExceeded⟩
    · exact ⟨r', rfl, hmirrors⟩
  | readCount n maximum =>
    obtain ⟨r', he, hmirrors, _⟩ := cursorTaken_spec h n
    rw [run_readCount]
    show ∃ r'', (cursorTaken r n).map _ = _ ∧ _
    rw [he, Option.map_some, hmirrors.reader]
    dsimp only
    split_ifs
    · exact ⟨r', rfl, hmirrors⟩
    · exact ⟨_, rfl, hmirrors.fail .limitExceeded⟩
    · exact ⟨r', rfl, hmirrors⟩
  | finish =>
    obtain ⟨hvalue, hmirrors⟩ := cursorFinish_spec r
    refine ⟨(cursorFinish r).2, ?_, hmirrors⟩
    rw [hvalue]
    rfl
  | setError error => exact ⟨_, rfl, mirrors_fail r error⟩

/-- After an error an operation fails, gives no data and changes nothing. -/
theorem run_error (reader : PacketReader) (herr : reader.error ≠ .none) (operation : Operation) :
    operation.run reader = ((false, []), reader) := by
  have htake (len : ℕ) : packetReaderTake reader len = (none, reader) := if_pos herr
  have hview (maxLen : ℕ) : packetReaderReadStringView reader maxLen = ([], reader) := if_pos herr
  have hfail (error : PacketError) : packetReaderFail reader error = reader := if_neg herr
  cases operation with
  | take len =>
    rw [run_take, htake]
    rfl
  | skip len =>
    rw [run_skip, htake, if_neg fun h => herr h.2]
    rfl
  | readStringView maxLen =>
    rw [run_readStringView, hview]
    dsimp only
    rw [decide_eq_false herr]
  | readStringBounded destSize maxLen =>
    rw [run_readStringBounded, hview]
    exact if_pos herr
  | readCount n maximum =>
    rw [run_readCount, htake]
    exact if_pos herr
  | finish =>
    unfold Operation.run Operation.scoped scopedFinish
    dsimp only
    rw [if_neg fun h => herr h.1, decide_eq_false herr]
  | setError error =>
    unfold Operation.run Operation.scoped scopedFail
    dsimp only
    rw [hfail]

/-- One operation of a sound reader: it looks at nothing outside the buffer, goes forward inside
it, and does nothing after an error; the mirror follows a position that has moved. -/
theorem step_sound (h : r.Sound) (operation : Operation) : ∃ out r',
    operation.cursor r = some (out, r') ∧ r'.Sound ∧ r'.reader.data = r.reader.data ∧
      r.reader.pos ≤ r'.reader.pos ∧
      (r.reader.error ≠ .none → r'.reader.pos = r.reader.pos ∧ r'.reader.error = r.reader.error ∧
        out = (false, [])) ∧
      (r.reader.pos < r'.reader.pos → r'.position = r.position.map fun _ => r'.reader.pos) ∧
      r'.position.isSome = r.position.isSome ∧
      out = (operation.run r.reader).1 ∧ r'.reader = (operation.run r.reader).2 := by
  obtain ⟨r', he, hreader, hnull, hposition⟩ := operation_cursor h operation
  have hfollows := follows_operation operation
  have hdata : r'.reader.data = r.reader.data := by
    rw [hreader]
    exact hfollows.data (r.reader, none)
  have hforward : r.reader.pos ≤ r'.reader.pos := by
    rw [hreader]
    exact hfollows.forward (r.reader, none)
  have hinside : r'.reader.Inside := by
    rw [hreader]
    exact operation_inside h.inside operation
  have herror : r.reader.error ≠ .none → r'.reader = r.reader ∧
      (operation.run r.reader).1 = (false, []) := by
    intro herr
    rw [hreader, run_error r.reader herr operation]
    exact ⟨rfl, rfl⟩
  refine ⟨_, r', he, ⟨hinside, by rw [hdata]; exact h.fits, ?_⟩, hdata, hforward, ?_, ?_, ?_, rfl,
    hreader⟩
  · intro hisNull hnone
    rw [hdata]
    refine h.null (hnull ▸ hisNull) ?_
    by_contra herr
    exact herr ((herror herr).1 ▸ hnone)
  · intro herr
    obtain ⟨hsame, hout⟩ := herror herr
    rw [hsame]
    exact ⟨rfl, rfl, hout⟩
  · intro hmoved
    rcases hposition with ⟨hstill, _⟩ | hfollowed
    · omega
    · exact hfollowed
  · rcases hposition with ⟨_, hsame⟩ | hfollowed
    · rw [hsame]
    · rw [hfollowed, Option.isSome_map]

theorem after_sound (h : r.Sound) (operations : List Operation) : ∃ r',
    r.after operations = some r' ∧ r'.Sound ∧ r'.reader.data = r.reader.data ∧
      r'.position.isSome = r.position.isSome := by
  induction operations generalizing r with
  | nil => exact ⟨r, rfl, h, rfl, rfl⟩
  | cons operation operations ih =>
    obtain ⟨out, r', he, h', hdata, _, _, _, hsome, _⟩ := step_sound h operation
    obtain ⟨r'', hafter, h'', hdata', hsome'⟩ := ih h'
    refine ⟨r'', ?_, h'', hdata'.trans hdata, hsome'.trans hsome⟩
    rw [CursorReader.after, he, Option.bind_some]
    exact hafter

/-- A string is read when a zero comes soon enough, and it is what stands before the first one. -/
theorem readStringView_spec (reader : PacketReader) (hinside : reader.Inside)
    (hfits : reader.data.length ≤ sizeMax) (herr : reader.error = .none) (maxLen : ℕ) :
    let rest := reader.data.drop reader.pos
    let view := packetReaderReadStringView reader maxLen
    (view.2.error = .none ↔ ∃ k ≤ maxLen, rest[k]? = some 0) ∧
      (view.2.error = .none → view.1 = rest.takeWhile (· ≠ 0)) := by
  intro rest view
  have hremaining : packetReaderRemaining reader = rest.length := by
    rw [remaining_of_inside hinside, List.length_drop]
  have hlimited (error : PacketError) (hne : error ≠ .none) :
      (packetReaderFail reader error).error ≠ .none := by
    rw [packetReaderFail, if_pos herr]
    exact hne
  have hview : view = if rest.length = 0 then ([], packetReaderFail reader .truncated)
      else
        match (rest.take (min rest.length (maxLen+if maxLen ≠ sizeMax then 1 else 0))).findIdx?
          (· = 0) with
        | none => ([], packetReaderFail reader
            (if rest.length > maxLen then .limitExceeded else .truncated))
        | some len =>
          if len > maxLen then ([], packetReaderFail reader .limitExceeded)
          else (rest.take len, { reader with pos := reader.pos+(len+1) }) := by
    show packetReaderReadStringView reader maxLen = _
    unfold packetReaderReadStringView
    refine (if_neg (not_not.mpr herr)).trans ?_
    simp only [hremaining]
    rfl
  have hshort : rest.length ≤ sizeMax := by
    rw [List.length_drop]
    omega
  by_cases hempty : rest.length = 0
  · rw [hview, if_pos hempty]
    have hnone : ¬∃ k ≤ maxLen, rest[k]? = some 0 := by
      rintro ⟨k, _, hk⟩
      have hlt := (List.getElem?_eq_some_iff.mp hk).1
      omega
    have hfailed := hlimited .truncated (by decide)
    exact ⟨iff_of_false hfailed hnone, fun h => absurd h hfailed⟩
  rw [hview, if_neg hempty]
  cases hfound : (rest.take (min rest.length (maxLen+if maxLen ≠ sizeMax then 1 else 0))).findIdx?
    (· = 0) with
  | none =>
    have hfailed := hlimited (if rest.length > maxLen then .limitExceeded else .truncated)
      (by split_ifs <;> decide)
    refine ⟨iff_of_false hfailed ?_, fun h => absurd h hfailed⟩
    rintro ⟨k, hmax, hk⟩
    -- the zero lies in the part that is searched
    have hlt := (List.getElem?_eq_some_iff.mp hk).1
    have hsearched : k < min rest.length (maxLen+if maxLen ≠ sizeMax then 1 else 0) := by
      split_ifs <;> omega
    rw [← List.getElem?_take_of_lt hsearched] at hk
    exact absurd (List.findIdx?_eq_none_iff.mp hfound 0 (List.mem_of_getElem? hk)) (by decide)
  | some len =>
    obtain ⟨s, rfl, hlt, hzero, more, hmore⟩ := (findIdx?_terminator _ _ _).mp hfound
    have hrest : rest = s ++ 0 :: more := by
      rw [← hmore, List.append_assoc]
      rfl
    dsimp only
    by_cases hlong : s.length > maxLen
    · rw [if_pos hlong]
      have hfailed := hlimited .limitExceeded (by decide)
      refine ⟨iff_of_false hfailed ?_, fun h => absurd h hfailed⟩
      rintro ⟨k, hmax, hk⟩
      rw [hrest, List.getElem?_append_left (by omega)] at hk
      exact hzero (List.mem_of_getElem? hk)
    · rw [if_neg hlong]
      refine ⟨iff_of_true herr ⟨s.length, Nat.not_lt.mp hlong, ?_⟩, fun _ => ?_⟩
      · rw [hrest, List.getElem?_append_right le_rfl, Nat.sub_self]
        rfl
      · have hnonzero : ∀ b ∈ s, decide (b ≠ 0) = true := by
          intro b hb
          exact decide_eq_true fun he => hzero (he ▸ hb)
        rw [hrest, List.take_left, List.takeWhile_append_of_pos hnonzero,
          List.takeWhile_cons_of_neg (by decide), List.append_nil]

/-- After any operations on a reader of any buffer: the next operation looks at nothing outside
the buffer, and the position stays inside it and does not go back; after an error nothing moves,
nothing is read and the error stays; the mirror of a cursor is where the position is once it has
moved; and a string is read exactly if it ends soon enough. -/
theorem reader_safe (buffer : Buffer) (init : ReaderInit) (operations : List Operation) :
    ∃ r, (init.reader buffer).after operations = some r ∧
      r.reader.pos ≤ buffer.bytes.length ∧ ∀ operation : Operation,
      ∃ (out : Bool × List UInt8) (r' : CursorReader), operation.cursor r = some (out, r') ∧
      r.reader.pos ≤ r'.reader.pos ∧ r'.reader.pos ≤ buffer.bytes.length ∧
      (r.reader.error ≠ .none → r'.reader.pos = r.reader.pos ∧ r'.reader.error = r.reader.error ∧
        out = (false, [])) ∧
      (∀ position, init = .cursor position → r.reader.pos < r'.reader.pos →
        r'.position = some r'.reader.pos) ∧
      ∀ maxLen, operation = .readStringView maxLen → r.reader.error = .none →
        (out.1 = true ↔ ∃ k ≤ maxLen, (buffer.bytes.drop r.reader.pos)[k]? = some 0) ∧
        (out.1 = true → out.2 = (buffer.bytes.drop r.reader.pos).takeWhile (· ≠ 0)) := by
  have hstart : (init.reader buffer).Sound ∧ (init.reader buffer).reader.data = buffer.bytes ∧
      ∀ position, init = .cursor position → (init.reader buffer).position.isSome = true := by
    have hdata (pos : ℕ) : (cursorInitAt buffer pos).reader.data = buffer.bytes := by
      unfold cursorInitAt
      dsimp only
      split_ifs <;> rfl
    cases init with
    | start pos => exact ⟨sound_initAt buffer pos, hdata pos, fun _ h => nomatch h⟩
    | cursor position =>
      exact ⟨sound_initCursor buffer position, hdata position, fun _ _ => rfl⟩
  obtain ⟨hsound, hbytes, hcursor⟩ := hstart
  obtain ⟨r, hafter, h, hdata, hsome⟩ := after_sound hsound operations
  rw [hbytes] at hdata
  refine ⟨r, hafter, hdata ▸ h.inside, fun operation => ?_⟩
  obtain ⟨out, r', he, h', hdata', hforward, herror, hmirror, _, hout, hreader⟩ :=
    step_sound h operation
  refine ⟨out, r', he, hforward, ?_, herror, ?_, ?_⟩
  · rw [← hdata, ← hdata']
    exact h'.inside
  · intro position hinit hmoved
    have hisSome := hcursor position hinit
    rw [← hsome] at hisSome
    obtain ⟨mirrored, hmirrored⟩ := Option.isSome_iff_exists.mp hisSome
    rw [hmirror hmoved, hmirrored]
    rfl
  · rintro maxLen rfl hnone
    obtain ⟨hfound, hview⟩ := readStringView_spec r.reader h.inside h.fits hnone maxLen
    rw [hout, run_readStringView, ← hdata]
    dsimp only
    rw [decide_eq_true_iff]
    exact ⟨hfound, hview⟩

end LibAtrinik.Packet

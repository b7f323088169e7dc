import LibAtrinik.PacketReader

namespace LibAtrinik.Packet

/-- `packet_reader_scope_t`. The data is known by its address, and scopes by numbers. -/
structure Scope where
  data : Option ℕ := none
  len : ℕ := 0
  pos : ℕ := 0
  error : PacketError := .none
  initialized : Bool := false
  previous : Option ℕ := none
deriving DecidableEq, Repr

/-- A reader and the scope that it is bound to. -/
abbrev ScopedReader := PacketReader × Option Scope

section Code

/-- The part of `packet_reader_fail` that is about the scope. -/
def Scope.fail (s : Scope) (error : PacketError) : Scope :=
  if s.error = .none then { s with error := error } else s

/-- The scope is told how far a reader has read. -/
def Scope.read (s : Scope) (pos : ℕ) : Scope := { s with pos := max s.pos pos }

def scopedFail (r : ScopedReader) (error : PacketError) : ScopedReader :=
  (packetReaderFail r.1 error, r.2.map fun s => s.fail error)

def scopedAdvance (r : ScopedReader) (n : ℕ) : ScopedReader :=
  ({ r.1 with pos := r.1.pos+n }, r.2.map fun s => s.read (r.1.pos+n))

/-- `packet_reader_take`. -/
def scopedTake (r : ScopedReader) (len : ℕ) : Option (List UInt8) × ScopedReader :=
  if r.1.error ≠ .none then (none, r)
  else if len > packetReaderRemaining r.1 then (none, scopedFail r .truncated)
  else if len = 0 then (some [], r)
  else (some ((r.1.data.drop r.1.pos).take len), scopedAdvance r len)

/-- `packet_reader_skip`. -/
def scopedSkip (r : ScopedReader) (len : ℕ) : Bool × ScopedReader :=
  if len = 0 ∧ r.1.error = .none then (true, r)
  else
    let taken := scopedTake r len
    (taken.1.isSome, taken.2)

/-- `packet_reader_read_string_view`. -/
def scopedReadStringView (r : ScopedReader) (maxLen : ℕ) : List UInt8 × ScopedReader :=
  if r.1.error ≠ .none then ([], r)
  else
    let remaining := packetReaderRemaining r.1
    if remaining = 0 then ([], scopedFail r .truncated)
    else
      let searchLen := min remaining (maxLen+if maxLen ≠ sizeMax then 1 else 0)
      -- memchr for the terminating zero
      match ((r.1.data.drop r.1.pos).take searchLen).findIdx? (· = 0) with
      | none => ([], scopedFail r (if remaining > maxLen then .limitExceeded else .truncated))
      | some len =>
        if len > maxLen then ([], scopedFail r .limitExceeded)
        else ((r.1.data.drop r.1.pos).take len, scopedAdvance r (len+1))

/-- `packet_reader_read_string_bounded`. -/
def scopedReadStringBounded (r : ScopedReader) (destSize maxLen : ℕ) :
    (Bool × List UInt8) × ScopedReader :=
  let view := scopedReadStringView r maxLen
  if view.2.1.error ≠ .none then ((false, []), view.2)
  else if view.1.length ≥ destSize then ((false, []), scopedFail view.2 .limitExceeded)
  else ((true, view.1), view.2)

/-- The functions that read a count of `n` bytes, by `packet_reader_check_count`. -/
def scopedReadCount (r : ScopedReader) (n maximum : ℕ) : (Bool × List UInt8) × ScopedReader :=
  let taken := scopedTake r n
  let value := BigEndian.value (taken.1.getD [])
  if taken.2.1.error ≠ .none then ((false, []), taken.2)
  else if value > maximum then ((false, []), scopedFail taken.2 .limitExceeded)
  else ((true, taken.1.getD []), taken.2)

/-- `packet_reader_finish`. -/
def scopedFinish (r : ScopedReader) : Bool × ScopedReader :=
  let r :=
    if r.1.error = .none ∧ r.1.pos ≠ r.1.data.length then scopedFail r .trailingData else r
  (r.1.error = .none, r)

/-- What is done with a reader. The numbers are read from the bytes of a `take`. -/
inductive Operation where
  | take (len : ℕ)
  | skip (len : ℕ)
  | readStringView (maxLen : ℕ)
  | readStringBounded (destSize maxLen : ℕ)
  | readCount (n maximum : ℕ)
  | finish
  | setError (error : PacketError)
deriving DecidableEq, Repr

/-- What an operation gives back: whether it went well, and the bytes that were read. -/
def Operation.scoped (r : ScopedReader) : Operation → (Bool × List UInt8) × ScopedReader
  | .take len =>
    let taken := scopedTake r len
    ((taken.1.isSome, taken.1.getD []), taken.2)
  | .skip len =>
    let skipped := scopedSkip r len
    ((skipped.1, []), skipped.2)
  | .readStringView maxLen =>
    let view := scopedReadStringView r maxLen
    ((view.2.1.error = .none, view.1), view.2)
  | .readStringBounded destSize maxLen => scopedReadStringBounded r destSize maxLen
  | .readCount n maximum => scopedReadCount r n maximum
  | .finish =>
    let finished := scopedFinish r
    ((finished.1, []), finished.2)
  | .setError error => ((false, []), scopedFail r error)

/-- An operation on a reader without a scope. -/
def Operation.run (reader : PacketReader) (operation : Operation) :
    (Bool × List UInt8) × PacketReader :=
  let result := operation.scoped (reader, none)
  (result.1, result.2.1)

end Code

section Following

/-- What a scope is told when a reader that is bound to it changes. -/
def Scope.follow (s : Scope) (reader reader' : PacketReader) : Scope :=
  { s with
    pos := if reader'.pos = reader.pos then s.pos else max s.pos reader'.pos
    error := if s.error = .none then reader'.error else s.error }

/-- A scope knows of an error of its readers. -/
def Knows (scope : Option Scope) (reader : PacketReader) : Prop :=
  ∀ s ∈ scope, reader.error ≠ .none → s.error ≠ .none

/-- A step of a reader does the same with every scope, goes forward and keeps errors; its scope
follows it. -/
structure Follows {α : Type} (step : ScopedReader → α × ScopedReader) : Prop where
  erase : ∀ r, (step r).1 = (step (r.1, none)).1 ∧ (step r).2.1 = (step (r.1, none)).2.1
  forward : ∀ r, r.1.pos ≤ (step r).2.1.pos
  data : ∀ r, (step r).2.1.data = r.1.data
  sticky : ∀ r, r.1.error ≠ .none → (step r).2.1.error = r.1.error
  scope : ∀ r, Knows r.2 r.1 → (step r).2.2 = r.2.map fun s => s.follow r.1 (step r).2.1

theorem follow_self (s : Scope) (reader : PacketReader) (h : reader.error ≠ .none → s.error ≠ .none) :
    s.follow reader reader = s := by
  unfold Scope.follow
  rw [if_pos rfl]
  by_cases hs : s.error = .none
  · have hr : reader.error = .none := by
      by_contra hne
      exact h hne hs
    rw [if_pos hs, hr, ← hs]
  · rw [if_neg hs]

theorem follow_map_self (scope : Option Scope) (reader : PacketReader) (h : Knows scope reader) :
    scope.map (fun s => s.follow reader reader) = scope := by
  cases scope with
  | none => rfl
  | some s => exact congrArg some (follow_self s reader (h s rfl))

/-- What a scope is told of two steps is what it is told of both together. -/
theorem follow_trans (s : Scope) (r r' r'' : PacketReader) (hforward : r.pos ≤ r'.pos)
    (hforward' : r'.pos ≤ r''.pos) (hsticky : r'.error ≠ .none → r''.error = r'.error) :
    (s.follow r r').follow r' r'' = s.follow r r'' := by
  unfold Scope.follow
  dsimp only
  have hpos : (if r''.pos = r'.pos then if r'.pos = r.pos then s.pos else max s.pos r'.pos
      else max (if r'.pos = r.pos then s.pos else max s.pos r'.pos) r''.pos) =
      if r''.pos = r.pos then s.pos else max s.pos r''.pos := by
    split_ifs <;> omega
  have herror : (if (if s.error = .none then r'.error else s.error) = .none then r''.error
      else if s.error = .none then r'.error else s.error) =
      if s.error = .none then r''.error else s.error := by
    by_cases hs : s.error = .none
    · rw [if_pos hs, if_pos hs]
      by_cases hr : r'.error = .none
      · rw [if_pos hr]
      · rw [if_neg hr, hsticky hr]
    · rw [if_neg hs, if_neg hs]
  rw [hpos, herror]

theorem follow_knows (s : Scope) (reader reader' : PacketReader)
    (h : reader'.error ≠ .none) : (s.follow reader reader').error ≠ .none := by
  unfold Scope.follow
  dsimp only
  split_ifs with hs
  · exact h
  · exact hs

variable {α β : Type}

theorem follows_pure (a : ScopedReader → α) (ha : ∀ r, a r = a (r.1, none)) :
    Follows fun r : ScopedReader => (a r, r) where
  erase := fun r => ⟨ha r, rfl⟩
  forward := fun _ => Nat.le_refl _
  data := fun _ => rfl
  sticky := fun _ _ => rfl
  scope := fun r hr => (follow_map_self r.2 r.1 hr).symm

/-- Steps one after the other. -/
theorem Follows.bind {step : ScopedReader → α × ScopedReader}
    {g : α → ScopedReader → β × ScopedReader} (h : Follows step) (h' : ∀ a, Follows (g a)) :
    Follows fun r => g (step r).1 (step r).2 where
  erase := by
    intro r
    obtain ⟨hvalue, hreader⟩ := h.erase r
    obtain ⟨hvalue', hreader'⟩ := (h' (step r).1).erase (step r).2
    obtain ⟨hvalue'', hreader''⟩ := (h' (step r).1).erase (step (r.1, none)).2
    rw [← hvalue, hvalue', hreader', hvalue'', hreader'', hreader]
    exact ⟨rfl, rfl⟩
  forward := fun r => Nat.le_trans (h.forward r) ((h' (step r).1).forward (step r).2)
  data := fun r => ((h' (step r).1).data (step r).2).trans (h.data r)
  sticky := by
    intro r hr
    have hfirst := h.sticky r hr
    rw [(h' (step r).1).sticky (step r).2 (by rw [hfirst]; exact hr), hfirst]
  scope := by
    intro r hr
    have hfirst := h.scope r hr
    have hknows : Knows (step r).2.2 (step r).2.1 := by
      intro s hs hne
      rw [hfirst] at hs
      obtain ⟨s₀, _, heq⟩ := Option.map_eq_some_iff.mp hs
      rw [← heq]
      exact follow_knows s₀ r.1 (step r).2.1 hne
    rw [(h' (step r).1).scope (step r).2 hknows, hfirst, Option.map_map]
    apply Option.map_congr
    intro s _
    exact follow_trans s r.1 (step r).2.1 _ (h.forward r) ((h' (step r).1).forward (step r).2)
      ((h' (step r).1).sticky (step r).2)

/-- A choice that looks at the reader only. -/
theorem follows_choice {f : PacketReader → ScopedReader → α × ScopedReader}
    (h : ∀ reader, Follows (f reader)) : Follows fun r => f r.1 r where
  erase := fun r => (h r.1).erase r
  forward := fun r => (h r.1).forward r
  data := fun r => (h r.1).data r
  sticky := fun r => (h r.1).sticky r
  scope := fun r => (h r.1).scope r

theorem follows_fail (a : α) (error : PacketError) : Follows fun r => (a, scopedFail r error) where
  erase := fun _ => ⟨rfl, rfl⟩
  forward := by
    intro r
    change r.1.pos ≤ (packetReaderFail r.1 error).pos
    unfold packetReaderFail
    split_ifs <;> exact Nat.le_refl _
  data := by
    intro r
    change (packetReaderFail r.1 error).data = r.1.data
    unfold packetReaderFail
    split_ifs <;> rfl
  sticky := by
    intro r hr
    change (packetReaderFail r.1 error).error = r.1.error
    unfold packetReaderFail
    rw [if_neg hr]
  scope := by
    intro r hr
    change r.2.map (fun s => s.fail error) =
      r.2.map fun s => s.follow r.1 (packetReaderFail r.1 error)
    apply Option.map_congr
    intro s hs
    unfold packetReaderFail Scope.fail
    by_cases herror : r.1.error = .none
    · rw [if_pos herror]
      unfold Scope.follow
      rw [if_pos rfl]
      split_ifs <;> rfl
    · have hknown := hr s hs herror
      rw [if_neg herror, if_neg hknown, follow_self s r.1 fun _ => hknown]

/-- The reader goes forward while it has no error. -/
theorem follows_advance (a : ScopedReader → α) (ha : ∀ r, a r = a (r.1, none)) (n : ℕ)
    (hn : n ≠ 0) : Follows fun r => (a r, scopedAdvance r n) where
  erase := fun r => ⟨ha r, rfl⟩
  forward := fun _ => Nat.le_add_right _ _
  data := fun _ => rfl
  sticky := fun _ _ => rfl
  scope := by
    intro r hr
    apply Option.map_congr
    intro s hs
    unfold Scope.read Scope.follow scopedAdvance
    have hne : ¬ r.1.pos+n = r.1.pos := by omega
    dsimp only
    rw [if_neg hne]
    by_cases hs' : s.error = .none
    · have hnone : r.1.error = .none := by
        by_contra herror
        exact hr s hs herror hs'
      rw [if_pos hs', hnone, hs']
    · rw [if_neg hs']

end Following

section Operations

theorem follows_take (len : ℕ) : Follows fun r => scopedTake r len := by
  apply follows_choice (f := fun reader r =>
    if reader.error ≠ .none then (none, r)
    else if len > packetReaderRemaining reader then (none, scopedFail r .truncated)
    else if len = 0 then (some [], r)
    else (some ((reader.data.drop reader.pos).take len), scopedAdvance r len))
  intro reader
  split_ifs with herror hlong hzero
  · exact follows_pure (fun _ => none) fun _ => rfl
  · exact follows_fail none .truncated
  · exact follows_pure (fun _ => some []) fun _ => rfl
  · exact follows_advance (fun _ => some _) (fun _ => rfl) len hzero

theorem follows_skip (len : ℕ) : Follows fun r => scopedSkip r len := by
  apply follows_choice (f := fun reader r =>
    if len = 0 ∧ reader.error = .none then (true, r)
    else ((scopedTake r len).1.isSome, (scopedTake r len).2))
  intro reader
  split_ifs
  · exact follows_pure (fun _ => true) fun _ => rfl
  · exact (follows_take len).bind (fun a => follows_pure (fun _ => a.isSome) fun _ => rfl)

theorem follows_readStringView (maxLen : ℕ) : Follows fun r => scopedReadStringView r maxLen := by
  apply follows_choice (f := fun reader r =>
    if reader.error ≠ .none then ([], r)
    else if packetReaderRemaining reader = 0 then ([], scopedFail r .truncated)
    else
      match ((reader.data.drop reader.pos).take (min (packetReaderRemaining reader)
          (maxLen+if maxLen ≠ sizeMax then 1 else 0))).findIdx? (· = 0) with
      | none =>
        ([], scopedFail r
          (if packetReaderRemaining reader > maxLen then .limitExceeded else .truncated))
      | some len =>
        if len > maxLen then ([], scopedFail r .limitExceeded)
        else ((reader.data.drop reader.pos).take len, scopedAdvance r (len+1)))
  intro reader
  by_cases herror : reader.error ≠ .none
  · simp only [if_pos herror]
    exact follows_pure (fun _ => []) fun _ => rfl
  by_cases hempty : packetReaderRemaining reader = 0
  · simp only [if_neg herror, if_pos hempty]
    exact follows_fail [] .truncated
  simp only [if_neg herror, if_neg hempty]
  cases (List.take _ (reader.data.drop reader.pos)).findIdx? (· = 0) with
  | none => exact follows_fail [] _
  | some len =>
    dsimp only
    by_cases hlong : len > maxLen
    · simp only [if_pos hlong]
      exact follows_fail [] .limitExceeded
    · simp only [if_neg hlong]
      exact follows_advance (fun _ => _) (fun _ => rfl) (len+1) (Nat.succ_ne_zero len)

theorem follows_readStringBounded (destSize maxLen : ℕ) :
    Follows fun r => scopedReadStringBounded r destSize maxLen := by
  apply (follows_readStringView maxLen).bind (g := fun view r =>
    if r.1.error ≠ .none then ((false, []), r)
    else if view.length ≥ destSize then ((false, []), scopedFail r .limitExceeded)
    else ((true, view), r))
  intro view
  apply follows_choice (f := fun reader r =>
    if reader.error ≠ .none then ((false, []), r)
    else if view.length ≥ destSize then ((false, []), scopedFail r .limitExceeded)
    else ((true, view), r))
  intro reader
  split_ifs
  · exact follows_pure (fun _ => (false, [])) fun _ => rfl
  · exact follows_fail (false, []) .limitExceeded
  · exact follows_pure (fun _ => (true, view)) fun _ => rfl

theorem follows_readCount (n maximum : ℕ) : Follows fun r => scopedReadCount r n maximum := by
  apply (follows_take n).bind (g := fun taken r =>
    if r.1.error ≠ .none then ((false, []), r)
    else if BigEndian.value (taken.getD []) > maximum then
      ((false, []), scopedFail r .limitExceeded)
    else ((true, taken.getD []), r))
  intro taken
  apply follows_choice (f := fun reader r =>
    if reader.error ≠ .none then ((false, []), r)
    else if BigEndian.value (taken.getD []) > maximum then
      ((false, []), scopedFail r .limitExceeded)
    else ((true, taken.getD []), r))
  intro reader
  split_ifs
  · exact follows_pure (fun _ => (false, [])) fun _ => rfl
  · exact follows_fail (false, []) .limitExceeded
  · exact follows_pure (fun _ => (true, taken.getD [])) fun _ => rfl

theorem follows_finish : Follows scopedFinish := by
  have hfirst : Follows fun r : ScopedReader =>
      if r.1.error = .none ∧ r.1.pos ≠ r.1.data.length then ((), scopedFail r .trailingData)
      else ((), r) := by
    apply follows_choice (f := fun reader r =>
      if reader.error = .none ∧ reader.pos ≠ reader.data.length then
        ((), scopedFail r .trailingData)
      else ((), r))
    intro reader
    split_ifs
    · exact follows_fail () .trailingData
    · exact follows_pure (fun _ => ()) fun _ => rfl
  have hsecond := hfirst.bind (fun _ => follows_pure
    (fun r : ScopedReader => decide (r.1.error = .none)) fun _ => rfl)
  have heq : scopedFinish = fun r : ScopedReader =>
      let r := (if r.1.error = .none ∧ r.1.pos ≠ r.1.data.length then
        ((), scopedFail r .trailingData) else ((), r)).2
      (decide (r.1.error = .none), r) := by
    funext r
    unfold scopedFinish
    split_ifs <;> rfl
  rw [heq]
  exact hsecond

/-- Every operation is followed by the scope of its reader. -/
theorem follows_operation (operation : Operation) : Follows fun r => operation.scoped r := by
  cases operation with
  | take len =>
    exact (follows_take len).bind
      (fun a => follows_pure (fun _ => (a.isSome, a.getD [])) fun _ => rfl)
  | skip len => exact (follows_skip len).bind (fun a => follows_pure (fun _ => (a, [])) fun _ => rfl)
  | readStringView maxLen =>
    exact (follows_readStringView maxLen).bind
      (fun a => follows_pure (fun r => (decide (r.1.error = .none), a)) fun _ => rfl)
  | readStringBounded destSize maxLen => exact follows_readStringBounded destSize maxLen
  | readCount n maximum => exact follows_readCount n maximum
  | finish => exact follows_finish.bind (fun a => follows_pure (fun _ => (a, [])) fun _ => rfl)
  | setError error => exact follows_fail (false, []) error

/-- What the operations do with a reader is what the functions without scopes do. -/
theorem scopedTake_erase (reader : PacketReader) (len : ℕ) :
    (scopedTake (reader, none) len).1 = (packetReaderTake reader len).1 ∧
      (scopedTake (reader, none) len).2.1 = (packetReaderTake reader len).2 := by
  unfold scopedTake packetReaderTake
  dsimp only
  by_cases herror : reader.error ≠ .none
  · rw [if_pos herror, if_pos herror]
    exact ⟨rfl, rfl⟩
  rw [if_neg herror, if_neg herror]
  by_cases hlong : len > packetReaderRemaining reader
  · rw [if_pos hlong, if_pos hlong]
    exact ⟨rfl, rfl⟩
  rw [if_neg hlong, if_neg hlong]
  by_cases hzero : len = 0
  · rw [if_pos hzero, hzero, List.take_zero]
    exact ⟨rfl, rfl⟩
  · rw [if_neg hzero]
    exact ⟨rfl, rfl⟩

theorem scopedReadStringView_erase (reader : PacketReader) (maxLen : ℕ) :
    (scopedReadStringView (reader, none) maxLen).1 = (packetReaderReadStringView reader maxLen).1 ∧
      (scopedReadStringView (reader, none) maxLen).2.1 =
        (packetReaderReadStringView reader maxLen).2 := by
  unfold scopedReadStringView packetReaderReadStringView
  dsimp only
  by_cases herror : reader.error ≠ .none
  · rw [if_pos herror, if_pos herror]
    exact ⟨rfl, rfl⟩
  rw [if_neg herror, if_neg herror]
  by_cases hempty : packetReaderRemaining reader = 0
  · rw [if_pos hempty, if_pos hempty]
    exact ⟨rfl, rfl⟩
  rw [if_neg hempty, if_neg hempty]
  cases (List.take _ (reader.data.drop reader.pos)).findIdx? (· = 0) with
  | none => exact ⟨rfl, rfl⟩
  | some len =>
    dsimp only
    split_ifs <;> exact ⟨rfl, rfl⟩

end Operations

end LibAtrinik.Packet

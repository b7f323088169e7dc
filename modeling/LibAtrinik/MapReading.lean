import LibAtrinik.MapProtocol
import LibAtrinik.PacketScopeBounds
import LibAtrinik.PacketScopeRun

namespace LibAtrinik.MapProtocol

open Packet PrefixGrammar

/-- A way to read a message: it ends, refuses, or goes on after a step with the reader. -/
inductive Reading (α : Type) where
  | ret (a : α)
  | refuse
  | skip (size : ℕ) (next : Reading α)
  | read (size : ℕ) (next : List UInt8 → Reading α)
  | skipString (next : Reading α)
  | fits (size : ℕ) (next : Reading α)
  | view (size : ℕ) (next : List UInt8 → Reading α)

section Code

variable {α β τ : Type}

def Reading.bind : Reading α → (α → Reading β) → Reading β
  | .ret a, f => f a
  | .refuse, _ => .refuse
  | .skip size next, f => .skip size (next.bind f)
  | .read size next, f => .read size fun bytes => (next bytes).bind f
  | .skipString next, f => .skipString (next.bind f)
  | .fits size next, f => .fits size (next.bind f)
  | .view size next, f => .view size fun bytes => (next bytes).bind f

instance : Monad Reading where
  pure := .ret
  bind := .bind

/-- Reading without a scope. A reader that has refused is forgotten. -/
def Reading.plain : Reading α → Validation α
  | .ret a => fun reader => some (a, reader)
  | .refuse => fun _ => none
  | .skip size next => fun reader =>
    let skipped := packetReaderSkip reader size
    if skipped.1 then next.plain skipped.2 else none
  | .read size next => fun reader =>
    let taken := packetReaderTake reader size
    if taken.2.error = .none then (next (taken.1.getD [])).plain taken.2 else none
  | .skipString next => fun reader =>
    let view := packetReaderReadStringView reader packetPayloadMax
    if view.2.error = .none then next.plain view.2 else none
  | .fits size next => fun reader =>
    if size > packetReaderRemaining reader then none else next.plain reader
  | .view size next => fun reader =>
    let view := packetReaderReadView reader size
    (next view.1).plain view.2

/-- Reading with the scope of the reader, which also learns of a refused message. -/
def Reading.scoped : Reading α → ScopedReader → Option α × ScopedReader
  | .ret a => fun r => (some a, r)
  | .refuse => fun r => (none, r)
  | .skip size next => fun r =>
    let skipped := scopedSkip r size
    if skipped.1 then next.scoped skipped.2 else (none, skipped.2)
  | .read size next => fun r =>
    let taken := scopedTake r size
    if taken.2.1.error = .none then (next (taken.1.getD [])).scoped taken.2 else (none, taken.2)
  | .skipString next => fun r =>
    let view := scopedReadStringView r packetPayloadMax
    if view.2.1.error = .none then next.scoped view.2 else (none, view.2)
  | .fits size next => fun r =>
    if size > packetReaderRemaining r.1 then (none, r) else next.scoped r
  | .view size next => fun r =>
    let taken := scopedTake r size
    (next (taken.1.getD [])).scoped taken.2

def Reading.guard (p : Prop) [Decidable p] : Reading Unit := if p then .ret () else .refuse

def Reading.loop (body : τ → Reading τ) : ℕ → τ → Reading τ
  | 0, t => pure t
  | n+1, t => body t >>= Reading.loop body n

def readUint8 : Reading UInt8 :=
  .read 1 fun bytes => .ret (UInt8.ofBitVec (BigEndian.joined 8 bytes))

def readInt8 : Reading Int8 :=
  .read 1 fun bytes => .ret (UInt8.ofBitVec (BigEndian.joined 8 bytes)).toInt8

def readUint32 : Reading UInt32 :=
  .read 4 fun bytes => .ret (UInt32.ofBitVec (BigEndian.joined 32 bytes))

def skipString : Reading Unit := .skipString (.ret ())

/-! The parts of `map_protocol_validate` once more. The levels have readers of their own. -/

def readNew : Reading (UInt8 × UInt8) := do
  let width ← readUint8
  let height ← readUint8
  Reading.guard (width ≠ 0 ∧ height ≠ 0)
  pure (width, height)

def readConnected : Reading (UInt8 × UInt8) := do
  let tile ← readUint8
  let _ ← readInt8
  let _ ← readInt8
  let zoff ← readInt8
  Reading.guard (¬(tile < mapUpdateTileMin ∨ tile > mapUpdateTileMax ∨
    (tile = mapUpdateTileUp ∧ zoff ≠ 1) ∨ (tile = mapUpdateTileDown ∧ zoff ≠ -1) ∨
    (tile < mapUpdateTileUp ∧ zoff ≠ 0)))
  pure (0, 0)

def readChange (mapstat : UInt8) : Reading (UInt8 × UInt8) := do
  skipString
  skipString
  skipString
  let heightDiff ← readUint8
  Reading.guard (heightDiff ≤ 1)
  let regionHasMap ← readUint8
  Reading.guard (regionHasMap ≤ 1)
  skipString
  skipString
  skipString
  if mapstat = mapUpdateCmdNew then readNew else readConnected

def readHeader (mapstat : UInt8) : Reading (UInt8 × UInt8) :=
  if mapstat ≠ mapUpdateCmdSame then readChange mapstat else pure (0, 0)

def readLevelBytes (levelMask : UInt16) (depth : Int8) (levelSize : UInt32) :
    Reading (List UInt8) :=
  .fits levelSize.toNat (if levelMask &&& levelBit depth ≠ 0 then .refuse
    else .view levelSize.toNat .ret)

def readLevel (mapWidthLimit mapHeightLimit : ℤ) (levelMask : UInt16) : Reading UInt16 := do
  let depth ← readInt8
  let levelSize ← readUint32
  Reading.guard (-map2MaxDepth ≤ depth ∧ depth ≤ map2MaxDepth)
  let level ← readLevelBytes levelMask depth levelSize
  Reading.guard
    (socketCommandMapValidateLevel (packetReaderInit level) mapWidthLimit mapHeightLimit = true)
  pure (levelMask ||| levelBit depth)

def readMessage (mapWidthLimit mapHeightLimit : ℤ) : Reading UInt16 := do
  let mapstat ← readUint8
  Reading.guard (mapstat ≤ mapUpdateCmdConnected)
  let newMap ← readHeader mapstat
  let xpos ← readUint8
  let ypos ← readUint8
  let playerSubLayer ← readUint8
  Reading.guard (playerSubLayer < map2ProtocolSubLayers)
  Reading.guard (newMap.1 = 0 ∨ (xpos < newMap.1 ∧ ypos < newMap.2))
  let levelCount ← readUint8
  Reading.guard (levelCount ≠ 0 ∧ levelCount ≤ map2Levels)
  Reading.loop (readLevel mapWidthLimit mapHeightLimit) levelCount.toNat 0

/-- The arguments that the validator refuses before it makes a reader. -/
def refusedAtOnce (data : List UInt8) (pos : ℕ) (mapWidthLimit mapHeightLimit : ℤ) : Prop :=
  pos > data.length ∨ mapWidthLimit ≤ 0 ∨ mapWidthLimit > 32 ∨ mapHeightLimit ≤ 0 ∨
    mapHeightLimit > 32

instance (data : List UInt8) (pos : ℕ) (mapWidthLimit mapHeightLimit : ℤ) :
    Decidable (refusedAtOnce data pos mapWidthLimit mapHeightLimit) :=
  inferInstanceAs (Decidable (_ ∨ _))

/-- `map_protocol_validate` from its first reader on. -/
def validateScoped (mapWidthLimit mapHeightLimit : ℤ) (r : ScopedReader) : Bool × ScopedReader :=
  let message := (readMessage mapWidthLimit mapHeightLimit).scoped r
  match message.1 with
  | none => (false, message.2)
  | some levelMask =>
    let finished := scopedFinish message.2
    (finished.1 && levelMask &&& levelBit 0 != 0, finished.2)

end Code

section Scopes

variable {α β τ : Type}

/-- Every reading is followed by the scope of its reader. -/
theorem Reading.follows (reading : Reading α) : Follows reading.scoped := by
  induction reading with
  | ret a => exact follows_pure (fun _ => some a) fun _ => rfl
  | refuse => exact follows_pure (fun _ => none) fun _ => rfl
  | skip size next ih =>
    refine (follows_skip size).bind (g := fun ok r => if ok then next.scoped r else (none, r)) ?_
    intro ok
    split_ifs
    · exact ih
    · exact follows_pure (fun _ => none) fun _ => rfl
  | read size next ih =>
    refine (follows_take size).bind (g := fun bytes r =>
      if r.1.error = .none then (next (bytes.getD [])).scoped r else (none, r)) ?_
    intro bytes
    apply follows_choice (f := fun reader r =>
      if reader.error = .none then (next (bytes.getD [])).scoped r else (none, r))
    intro reader
    split_ifs
    · exact ih _
    · exact follows_pure (fun _ => none) fun _ => rfl
  | skipString next ih =>
    refine (follows_readStringView packetPayloadMax).bind (g := fun _ r =>
      if r.1.error = .none then next.scoped r else (none, r)) ?_
    intro bytes
    apply follows_choice (f := fun reader r =>
      if reader.error = .none then next.scoped r else (none, r))
    intro reader
    split_ifs
    · exact ih
    · exact follows_pure (fun _ => none) fun _ => rfl
  | fits size next ih =>
    apply follows_choice (f := fun reader r =>
      if size > packetReaderRemaining reader then (none, r) else next.scoped r)
    intro reader
    split_ifs
    · exact follows_pure (fun _ => none) fun _ => rfl
    · exact ih
  | view size next ih =>
    exact (follows_take size).bind (g := fun bytes => (next (bytes.getD [])).scoped)
      fun bytes => ih (bytes.getD [])

theorem Reading.inside (reading : Reading α) {r : ScopedReader} (h : r.1.Inside) :
    (reading.scoped r).2.1.Inside := by
  induction reading generalizing r with
  | ret a => exact h
  | refuse => exact h
  | skip size next ih =>
    have hskip := scopedSkip_inside h size
    rw [Reading.scoped]
    dsimp only
    split_ifs
    · exact ih hskip
    · exact hskip
  | read size next ih =>
    have htake := scopedTake_inside h size
    rw [Reading.scoped]
    dsimp only
    split_ifs
    · exact ih _ htake
    · exact htake
  | skipString next ih =>
    have hview := scopedReadStringView_inside h packetPayloadMax
    rw [Reading.scoped]
    dsimp only
    split_ifs
    · exact ih hview
    · exact hview
  | fits size next ih =>
    rw [Reading.scoped]
    dsimp only
    split_ifs
    · exact h
    · exact ih h
  | view size next ih => exact ih _ (scopedTake_inside h size)

theorem follows_validate (mapWidthLimit mapHeightLimit : ℤ) :
    Follows (validateScoped mapWidthLimit mapHeightLimit) := by
  have hbind := (readMessage mapWidthLimit mapHeightLimit).follows.bind (g := fun message r =>
    match message with
    | none => (false, r)
    | some levelMask =>
      ((scopedFinish r).1 && levelMask &&& levelBit 0 != 0, (scopedFinish r).2)) (by
    intro message
    cases message with
    | none => exact follows_pure (fun _ => false) fun _ => rfl
    | some levelMask =>
      exact follows_finish.bind fun finished =>
        follows_pure (fun _ => finished && levelMask &&& levelBit 0 != 0) fun _ => rfl)
  exact hbind

theorem validate_inside (mapWidthLimit mapHeightLimit : ℤ) {r : ScopedReader} (h : r.1.Inside) :
    (validateScoped mapWidthLimit mapHeightLimit r).2.1.Inside := by
  have hmessage := (readMessage mapWidthLimit mapHeightLimit).inside h
  unfold validateScoped
  dsimp only
  cases ((readMessage mapWidthLimit mapHeightLimit).scoped r).1 with
  | none => exact hmessage
  | some levelMask => exact operation_inside hmessage .finish

end Scopes

section Agreement

variable {α β τ : Type}

/-- The result of a reading without a scope, from the one with a scope. -/
def successOf (result : Option α × ScopedReader) : Option (α × PacketReader) :=
  result.1.map fun a => (a, result.2.1)

theorem scopedSkip_erase (reader : PacketReader) (len : ℕ) :
    (scopedSkip (reader, none) len).1 = (packetReaderSkip reader len).1 ∧
      (scopedSkip (reader, none) len).2.1 = (packetReaderSkip reader len).2 := by
  obtain ⟨hvalue, hreader⟩ := scopedTake_erase reader len
  unfold scopedSkip packetReaderSkip
  split_ifs
  · exact ⟨rfl, rfl⟩
  · exact ⟨congrArg Option.isSome hvalue, hreader⟩

/-- With and without a scope, a reading reads the same. -/
theorem Reading.plain_eq (reading : Reading α) (reader : PacketReader) (scope : Option Scope) :
    reading.plain reader = successOf (reading.scoped (reader, scope)) := by
  induction reading generalizing reader scope with
  | ret a => rfl
  | refuse => rfl
  | skip size next ih =>
    obtain ⟨hvalue, hreader⟩ := (follows_skip size).erase (reader, scope)
    obtain ⟨hvalue', hreader'⟩ := scopedSkip_erase reader size
    rw [Reading.plain, Reading.scoped]
    dsimp only at hvalue hreader ⊢
    rw [← hvalue', ← hreader', ← hvalue, ← hreader]
    split_ifs
    · exact ih _ _
    · rfl
  | read size next ih =>
    obtain ⟨hvalue, hreader⟩ := (follows_take size).erase (reader, scope)
    obtain ⟨hvalue', hreader'⟩ := scopedTake_erase reader size
    rw [Reading.plain, Reading.scoped]
    dsimp only at hvalue hreader ⊢
    rw [← hvalue', ← hreader', ← hvalue, ← hreader]
    split_ifs
    · exact ih _ _ _
    · rfl
  | skipString next ih =>
    obtain ⟨hvalue, hreader⟩ := (follows_readStringView packetPayloadMax).erase (reader, scope)
    obtain ⟨hvalue', hreader'⟩ := scopedReadStringView_erase reader packetPayloadMax
    rw [Reading.plain, Reading.scoped]
    dsimp only at hvalue hreader ⊢
    rw [← hreader', ← hreader]
    split_ifs
    · exact ih _ _
    · rfl
  | fits size next ih =>
    rw [Reading.plain, Reading.scoped]
    dsimp only
    split_ifs
    · rfl
    · exact ih _ _
  | view size next ih =>
    obtain ⟨hvalue, hreader⟩ := (follows_take size).erase (reader, scope)
    obtain ⟨hvalue', hreader'⟩ := scopedTake_erase reader size
    rw [Reading.plain, Reading.scoped]
    dsimp only [packetReaderReadView] at hvalue hreader ⊢
    rw [← hvalue', ← hreader', ← hvalue, ← hreader]
    exact ih _ _ _

theorem Reading.plain_bind (reading : Reading α) (f : α → Reading β) :
    (reading >>= f).plain = reading.plain >>= fun a => (f a).plain := by
  change (reading.bind f).plain = _
  funext reader
  change _ = (reading.plain reader).bind fun p => (f p.1).plain p.2
  induction reading generalizing reader with
  | ret a => rfl
  | refuse => rfl
  | skip size next ih =>
    rw [Reading.bind, Reading.plain, Reading.plain]
    dsimp only
    split_ifs
    · exact ih _
    · rfl
  | read size next ih =>
    rw [Reading.bind, Reading.plain, Reading.plain]
    dsimp only
    split_ifs
    · exact ih _ _
    · rfl
  | skipString next ih =>
    rw [Reading.bind, Reading.plain, Reading.plain]
    dsimp only
    split_ifs
    · exact ih _
    · rfl
  | fits size next ih =>
    rw [Reading.bind, Reading.plain, Reading.plain]
    dsimp only
    split_ifs
    · rfl
    · exact ih _
  | view size next ih =>
    rw [Reading.bind, Reading.plain, Reading.plain]
    exact ih _ _

theorem plain_pure (a : α) : (pure a : Reading α).plain = pure a := rfl

theorem plain_guard (p : Prop) [Decidable p] : (Reading.guard p).plain = guard p := by
  unfold Reading.guard
  split_ifs with h
  · rw [show (guard p : Validation Unit) = pure () from if_pos h]
    rfl
  · rw [show (guard p : Validation Unit) = failure from if_neg h]
    rfl

/-- A number that is read is there when the reader has no error. -/
theorem plain_read (n : ℕ) (f : List UInt8 → α) (read : PacketReader → α × PacketReader)
    (hread : ∀ reader bytes reader', packetReaderTake reader n = (some bytes, reader') →
      read reader = (f bytes, reader'))
    (hreader : ∀ reader, (read reader).2 = (packetReaderTake reader n).2) :
    (Reading.read n fun bytes => .ret (f bytes)).plain = checked read := by
  funext reader
  rw [Reading.plain, checked]
  dsimp only
  rw [hreader]
  split_ifs with herror
  · have hsome : ∃ bytes, (packetReaderTake reader n).1 = some bytes := by
      unfold packetReaderTake at herror ⊢
      split_ifs at herror ⊢ with hold hlong
      · exact absurd herror hold
      · unfold packetReaderFail at herror
        rw [if_pos (not_not.mp hold)] at herror
        cases herror
      · exact ⟨_, rfl⟩
    obtain ⟨bytes, hbytes⟩ := hsome
    rw [hread reader bytes _ (Prod.ext hbytes rfl), hbytes]
    rfl
  · rfl

theorem plain_readUint8 : readUint8.plain = mapPacketReadUint8 :=
  plain_read 1 _ packetReaderReadUint8 (fun reader bytes reader' h => by
    rw [packetReaderReadUint8, packetReaderReadBits, h]
    rfl) fun _ => rfl

theorem plain_readInt8 : readInt8.plain = mapPacketReadInt8 :=
  plain_read 1 _ packetReaderReadInt8 (fun reader bytes reader' h => by
    rw [packetReaderReadInt8, packetReaderReadUint8, packetReaderReadBits, h]
    rfl) fun _ => rfl

theorem plain_readUint32 : readUint32.plain = mapPacketReadUint32 :=
  plain_read 4 _ packetReaderReadUint32 (fun reader bytes reader' h => by
    rw [packetReaderReadUint32, packetReaderReadBits, h]
    rfl) fun _ => rfl

theorem plain_skipString : skipString.plain = mapPacketSkipString := by
  funext reader
  change (if (packetReaderReadStringView reader packetPayloadMax).2.error = .none then
    some ((), (packetReaderReadStringView reader packetPayloadMax).2) else none) =
      (checked (fun reader => packetReaderReadStringView reader packetPayloadMax) reader).bind
        fun p => some ((), p.2)
  unfold checked
  split_ifs <;> rfl

theorem plain_loop (body : τ → Reading τ) (n : ℕ) (t : τ) :
    (Reading.loop body n t).plain = loop (fun t => (body t).plain) n t := by
  induction n generalizing t with
  | zero => rfl
  | succ n ih =>
    rw [Reading.loop, loop, Reading.plain_bind]
    exact congrArg _ (funext ih)

theorem plain_readNew : readNew.plain = validateNew := by
  simp only [readNew, Reading.plain_bind, plain_readUint8, plain_guard, plain_pure]
  rfl

theorem plain_readConnected : readConnected.plain = validateConnected := by
  simp only [readConnected, Reading.plain_bind, plain_readUint8, plain_readInt8, plain_guard,
    plain_pure]
  rfl

theorem plain_readHeader (mapstat : UInt8) :
    (readHeader mapstat).plain = validateHeader mapstat := by
  have hlast : (if mapstat = mapUpdateCmdNew then readNew else readConnected).plain =
      if mapstat = mapUpdateCmdNew then validateNew else validateConnected := by
    split_ifs
    · exact plain_readNew
    · exact plain_readConnected
  unfold readHeader validateHeader
  split_ifs
  · simp only [readChange, Reading.plain_bind, plain_readUint8, plain_skipString, plain_guard, hlast]
    rfl
  · rfl

theorem plain_readLevelBytes (levelMask : UInt16) (depth : Int8) (levelSize : UInt32) :
    (readLevelBytes levelMask depth levelSize).plain = takeLevel levelMask depth levelSize := by
  funext reader
  unfold readLevelBytes takeLevel
  rw [Reading.plain]
  dsimp only
  split_ifs <;> rfl

theorem plain_readMessage (mapWidthLimit mapHeightLimit : ℤ) :
    (readMessage mapWidthLimit mapHeightLimit).plain =
      validateMessage mapWidthLimit mapHeightLimit := by
  have hlevel : (fun levelMask => (readLevel mapWidthLimit mapHeightLimit levelMask).plain) =
      validateLevel mapWidthLimit mapHeightLimit := by
    funext levelMask
    simp only [readLevel, Reading.plain_bind, plain_readInt8, plain_readUint32, plain_guard,
      plain_readLevelBytes, plain_pure]
    rfl
  simp only [readMessage, Reading.plain_bind, plain_readUint8, plain_guard, plain_readHeader,
    plain_loop, hlevel]
  rfl

theorem scopedFinish_erase (reader : PacketReader) :
    (scopedFinish (reader, none)).1 = (packetReaderFinish reader).1 := by
  unfold scopedFinish packetReaderFinish
  split_ifs <;> rfl

/-- The validator gives the same answer with a scope and without. -/
theorem validateScoped_eq (data : List UInt8) (pos : ℕ) (mapWidthLimit mapHeightLimit : ℤ)
    (h : ¬refusedAtOnce data pos mapWidthLimit mapHeightLimit) (scope : Option Scope) :
    (validateScoped mapWidthLimit mapHeightLimit (initReader data pos, scope)).1 =
      mapProtocolValidate (some data) pos mapWidthLimit mapHeightLimit := by
  have hpos : ¬pos > data.length := fun hlong => h (Or.inl hlong)
  have hinit : packetReaderInitAt data pos = initReader data pos := if_neg hpos
  have hmessage := Reading.plain_eq (readMessage mapWidthLimit mapHeightLimit) (initReader data pos)
    scope
  rw [plain_readMessage] at hmessage
  have hvalid : mapProtocolValidate (some data) pos mapWidthLimit mapHeightLimit = _ := if_neg h
  rw [hvalid, hinit, hmessage, successOf]
  unfold validateScoped
  dsimp only
  cases hresult : ((readMessage mapWidthLimit mapHeightLimit).scoped
      (initReader data pos, scope)).1 with
  | none => rfl
  | some levelMask =>
    have hfinish := (follows_finish.erase
      ((readMessage mapWidthLimit mapHeightLimit).scoped (initReader data pos, scope)).2).1
    dsimp only [Option.map_some]
    rw [hfinish, scopedFinish_erase]

end Agreement

end LibAtrinik.MapProtocol

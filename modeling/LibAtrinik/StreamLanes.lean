import LibAtrinik.StreamPending

namespace LibAtrinik.Stream

section Moves

/-- Bytes move through the queue of one stream in one of the directions: some are taken out in
front, and some are put in behind. -/
structure Moved (queues opposite : Net → ℕ → List UInt8) (s s' : Net) (ssl : ℕ)
    (taken added : List UInt8) : Prop where
  balance : queues s ssl ++ added = taken ++ queues s' ssl
  others : ∀ other, other ≠ ssl → queues s' other = queues s other
  opposite : opposite s' = opposite s
  opened : s'.opened = s.opened
  arrived : s'.arrived = s.arrived

/-- Bytes are taken out of the queue towards the acceptor, or put into it. -/
abbrev TookUp (s s' : Net) (ssl : ℕ) (bytes : List UInt8) : Prop :=
  Moved Net.up Net.down s s' ssl bytes []

abbrev PutUp (s s' : Net) (ssl : ℕ) (bytes : List UInt8) : Prop :=
  Moved Net.up Net.down s s' ssl [] bytes

/-- The same with the queue towards the opener. -/
abbrev TookDown (s s' : Net) (ssl : ℕ) (bytes : List UInt8) : Prop :=
  Moved Net.down Net.up s s' ssl bytes []

abbrev PutDown (s s' : Net) (ssl : ℕ) (bytes : List UInt8) : Prop :=
  Moved Net.down Net.up s s' ssl [] bytes

section Directions

variable {queues opposite : Net → ℕ → List UInt8} {s s₁ s' : Net} {ssl : ℕ}
  {taken added taken' added' bytes : List UInt8}

theorem Moved.nothing (hqueues : queues s' = queues s) (hopposite : opposite s' = opposite s)
    (hopened : s'.opened = s.opened) (harrived : s'.arrived = s.arrived) :
    Moved queues opposite s s' ssl [] [] := by
  refine ⟨?_, fun other _ => congrFun hqueues other, hopposite, hopened, harrived⟩
  rw [hqueues, List.append_nil, List.nil_append]

theorem Moved.trans (h : Moved queues opposite s s₁ ssl taken added)
    (h' : Moved queues opposite s₁ s' ssl taken' added') :
    Moved queues opposite s s' ssl (taken ++ taken') (added ++ added') := by
  refine ⟨?_, fun other hother => (h'.others other hother).trans (h.others other hother),
    h'.opposite.trans h.opposite, h'.opened.trans h.opened, h'.arrived.trans h.arrived⟩
  rw [← List.append_assoc, h.balance, List.append_assoc, h'.balance, List.append_assoc]

theorem Moved.took (h : Moved queues opposite s s' ssl bytes []) :
    queues s ssl = bytes ++ queues s' ssl := by
  rw [← h.balance, List.append_nil]

theorem Moved.put (h : Moved queues opposite s s' ssl [] bytes) :
    queues s' ssl = queues s ssl ++ bytes := h.balance.symm

end Directions

/-- What is received comes from the front of the queue. -/
theorem receive_append (schedule : Option ℕ) (queue : List UInt8) (size : ℕ) :
    queue = bytesRead (Net.receive schedule queue size) ++
      queue.drop (bytesRead (Net.receive schedule queue size)).length := by
  unfold Net.receive
  split
  · rfl
  · rename_i n
    change queue = queue.take (min n size) ++ queue.drop (queue.take (min n size)).length
    rw [List.length_take]
    rcases Nat.le_total (min n size) queue.length with hle | hle
    · rw [Nat.min_eq_left hle, List.take_append_drop]
    · rw [Nat.min_eq_right hle, List.take_of_length_le hle, List.drop_length, List.append_nil]

section Calls

variable {queues opposite : Net → ℕ → List UInt8} {s s' : Net} {ssl : ℕ} {bytes : List UInt8}

/-- A read takes the bytes that it delivers. -/
theorem Moved.receive {size : ℕ} (hqueues : queues s' = Function.update (queues s) ssl
      ((queues s ssl).drop (bytesRead (Net.receive s.next (queues s ssl) size)).length))
    (hopposite : opposite s' = opposite s) (hopened : s'.opened = s.opened)
    (harrived : s'.arrived = s.arrived) :
    Moved queues opposite s s' ssl (bytesRead (Net.receive s.next (queues s ssl) size)) [] := by
  refine ⟨?_, fun other hother => ?_, hopposite, hopened, harrived⟩
  · rw [hqueues, Function.update_self, List.append_nil]
    exact receive_append s.next (queues s ssl) size
  · rw [hqueues, Function.update_of_ne hother]

/-- A write puts what it reports to have written. -/
theorem Moved.send (hqueues : queues s' = Function.update (queues s) ssl (queues s ssl ++ bytes))
    (hopposite : opposite s' = opposite s) (hopened : s'.opened = s.opened)
    (harrived : s'.arrived = s.arrived) : Moved queues opposite s s' ssl [] bytes := by
  refine ⟨?_, fun other hother => ?_, hopposite, hopened, harrived⟩
  · rw [hqueues, Function.update_self, List.nil_append]
  · rw [hqueues, Function.update_of_ne hother]

end Calls

theorem readEx_took (s : Net) (ssl size : ℕ) :
    TookUp s (Net.acceptor.readEx s ssl size).2 ssl
      (bytesRead (Net.acceptor.readEx s ssl size).1) := Moved.receive rfl rfl rfl rfl

theorem readEx_took_down (s : Net) (ssl size : ℕ) :
    TookDown s (Net.opener.readEx s ssl size).2 ssl
      (bytesRead (Net.opener.readEx s ssl size).1) := Moved.receive rfl rfl rfl rfl

theorem writeEx_put (s : Net) (ssl : ℕ) (bytes : List UInt8) :
    PutUp s (Net.opener.writeEx s ssl bytes).2 ssl
      (bytes.take (amountWritten (Net.opener.writeEx s ssl bytes).1)) := Moved.send rfl rfl rfl rfl

theorem writeEx_put_down (s : Net) (ssl : ℕ) (bytes : List UInt8) :
    PutDown s (Net.acceptor.writeEx s ssl bytes).2 ssl
      (bytes.take (amountWritten (Net.acceptor.writeEx s ssl bytes).1)) :=
  Moved.send rfl rfl rfl rfl

/-- Reading the preface takes the bytes that it stores. -/
theorem prefaceRead_took {stream stream' : SocketStream ℕ} {s s' : Net} {complete : Bool}
    (h : PrefaceRead Net.acceptor stream s complete stream' s') (hpos : stream.prefacePos ≤ 8) :
    ∃ bytes, TookUp s s' stream.ssl bytes ∧
      stream'.preface.val.take stream'.prefacePos =
        stream.preface.val.take stream.prefacePos ++ bytes := by
  induction h with
  | @full stream s hfull =>
    refine ⟨[], Moved.nothing rfl rfl rfl rfl, ?_⟩
    unfold socketStreamPrefaceValid
    rw [List.append_nil]
    split <;> rfl
  | @more stream stream' s s₁ s' complete bytes hsize hfits hread _ _ ih =>
    obtain ⟨later, htook, hstored⟩ := ih hfits
    have hfirst := readEx_took s stream.ssl (8-stream.prefacePos)
    rw [hread] at hfirst
    refine ⟨bytes ++ later, hfirst.trans htook, ?_⟩
    rw [hstored, take_store, List.append_assoc]
  | @wait stream s s' answer _ hread hanswer =>
    have hfirst := readEx_took s stream.ssl (8-stream.prefacePos)
    rw [hread] at hfirst
    have hnone : bytesRead answer = [] := hanswer
    refine ⟨[], ?_, (List.append_nil _).symm⟩
    rwa [hnone] at hfirst
  | @fatal stream s s' answer _ hread hanswer =>
    -- the network has no errors
    have hreceive : answer = Net.receive s.next (s.up stream.ssl) (8-stream.prefacePos) :=
      (congrArg Prod.fst hread).symm
    unfold Net.receive at hreceive
    split at hreceive
    · rw [hreceive] at hanswer
      rcases hanswer with h | h <;> cases h
    · rw [hreceive] at hanswer
      rcases hanswer with h | h <;> cases h

/-- Writing the preface puts the bytes that it moves on by. -/
theorem prefaceWrite_put {stream stream' : SocketStream ℕ} {s s' : Net}
    {status : SocketStreamResult} (h : PrefaceWrite Net.opener stream s status stream' s')
    (hpos : stream.prefacePos ≤ 8) :
    ∃ bytes, PutUp s s' stream.ssl bytes ∧ stream'.prefacePos ≤ 8 ∧
      stream.preface.val.take stream'.prefacePos =
        stream.preface.val.take stream.prefacePos ++ bytes ∧
      (stream.prefacePos = 8 → bytes = []) ∧
      (status = .ok → stream.isLocal = true → stream'.prefacePos = 8) := by
  induction h with
  | @written stream s hdone =>
    refine ⟨[], Moved.nothing rfl rfl rfl rfl, hpos, (List.append_nil _).symm, fun _ => rfl, ?_⟩
    intro _ hlocal
    have hle := hdone hlocal
    omega
  | @more stream stream' s s₁ s' status answer hlocal hlt hwrite hamount hrest ih =>
    have hbound : amountWritten answer ≤ 8-stream.prefacePos := by
      have hlength : (stream.preface.val.drop stream.prefacePos).length = 8-stream.prefacePos := by
        rw [List.length_drop, stream.preface.property]
      rw [← hlength]
      cases answer with
      | ok amount => exact amount.property
      | want => exact Nat.zero_le _
      | finished => exact Nat.zero_le _
      | failed => exact Nat.zero_le _
    have hfits : stream.prefacePos+amountWritten answer ≤ 8 := by omega
    obtain ⟨later, hput, hle, hmoved, _, hok⟩ := ih hfits
    have hfirst := writeEx_put s stream.ssl (stream.preface.val.drop stream.prefacePos)
    rw [hwrite] at hfirst
    refine ⟨_, hfirst.trans hput, hle, ?_, fun hfull => by omega, hok⟩
    calc stream.preface.val.take stream'.prefacePos
        = stream.preface.val.take (stream.prefacePos+amountWritten answer) ++ later := hmoved
      _ = _ := by rw [List.take_add, List.append_assoc]
  | @wait stream s s' status answer _ hlt hwrite hamount hstatus =>
    have hfirst := writeEx_put s stream.ssl (stream.preface.val.drop stream.prefacePos)
    rw [hwrite] at hfirst
    have hamount : amountWritten answer = 0 := hamount
    rw [hamount] at hfirst
    exact ⟨[], hfirst, hpos, (List.append_nil _).symm, fun _ => rfl, fun h => absurd h hstatus⟩

end Moves

section Acceptor

/-- What the acceptor knows of the streams on which the bytes `sent` have been sent, when its
application has read the bytes `received`. -/
structure Accepts (sent received : ℕ → List UInt8) (t : Table ℕ Net) : Prop where
  remote : ∀ id stream, t.streams id = some stream →
    stream.isLocal = false ∧ stream.prefacePos ≤ 8 ∧ stream.ssl ∉ t.quic.arrived ∧
      stream.ssl < t.quic.opened
  unique : ∀ id id' stream stream', t.streams id = some stream → t.streams id' = some stream' →
    stream.ssl = stream'.ssl → id = id'
  arrivedNodup : t.quic.arrived.Nodup
  arrived : ∀ ssl ∈ t.quic.arrived, ssl < t.quic.opened ∧ t.quic.up ssl = sent ssl ∧
    received ssl = []
  unopened : ∀ ssl, t.quic.opened ≤ ssl → t.quic.up ssl = [] ∧ sent ssl = [] ∧ received ssl = []
  pending : ∀ id ∈ t.pending, ∀ stream, t.streams id = some stream → received stream.ssl = [] ∧
    stream.preface.val.take stream.prefacePos ++ t.quic.up stream.ssl = sent stream.ssl
  handed : ∀ id, id ∉ t.pending → ∀ stream, t.streams id = some stream → stream.prefacePos = 8 ∧
    socketStreamPrefaceDecode stream.preface.val = some stream.kind ∧
    stream.preface.val ++ received stream.ssl ++ t.quic.up stream.ssl = sent stream.ssl
  delivered : ∀ ssl, received ssl <+: (sent ssl).drop 8

variable {sent received : ℕ → List UInt8} {t : Table ℕ Net}

/-- The schedule and the clock do not matter. -/
theorem Accepts.withQuic (h : Accepts sent received t) (net : Net) (hup : net.up = t.quic.up)
    (hopened : net.opened = t.quic.opened) (harrived : net.arrived = t.quic.arrived) :
    Accepts sent received { t with quic := net } := by
  refine ⟨?_, h.unique, ?_, ?_, ?_, ?_, ?_, h.delivered⟩
  · intro id stream hstream
    change _ ∧ _ ∧ stream.ssl ∉ net.arrived ∧ stream.ssl < net.opened
    rw [harrived, hopened]
    exact h.remote id stream hstream
  · change net.arrived.Nodup
    rw [harrived]
    exact h.arrivedNodup
  · change ∀ ssl ∈ net.arrived, ssl < net.opened ∧ net.up ssl = _ ∧ _
    rw [harrived, hopened, hup]
    exact h.arrived
  · change ∀ ssl, net.opened ≤ ssl → net.up ssl = _ ∧ _
    rw [hopened, hup]
    exact h.unopened
  · change ∀ id ∈ t.pending, ∀ stream : SocketStream ℕ, _ → _ ∧ _ ++ net.up stream.ssl = _
    rw [hup]
    exact h.pending
  · change ∀ id, id ∉ t.pending → ∀ stream : SocketStream ℕ, _ →
      _ ∧ _ ∧ _ ++ net.up stream.ssl = _
    rw [hup]
    exact h.handed

/-- More of the preface of a pending stream is read. -/
theorem Accepts.receive (h : Accepts sent received t) (id : ℕ) (hid : id ∈ t.pending)
    (stream stream' : SocketStream ℕ) (hstream : t.streams id = some stream) (net : Net)
    (bytes : List UInt8) (htook : TookUp t.quic net stream.ssl bytes)
    (hssl : stream'.ssl = stream.ssl) (hlocal : stream'.isLocal = stream.isLocal)
    (hpos : stream'.prefacePos ≤ 8) (hstored : stream'.preface.val.take stream'.prefacePos =
      stream.preface.val.take stream.prefacePos ++ bytes) :
    Accepts sent received { t.setStream id stream' with quic := net } := by
  have hremote := h.remote id stream hstream
  have hbalance := h.pending id hid stream hstream
  have hother : ∀ other otherStream, other ≠ id → t.streams other = some otherStream →
      otherStream.ssl ≠ stream.ssl := by
    intro other otherStream hne hsome hsame
    exact hne (h.unique other id otherStream stream hsome hstream hsame)
  have hup : ∀ other otherStream, other ≠ id → t.streams other = some otherStream →
      net.up otherStream.ssl = t.quic.up otherStream.ssl := fun other otherStream hne hsome =>
    htook.others _ (hother other otherStream hne hsome)
  constructor
  · intro other s hs
    change _ ∧ _ ∧ s.ssl ∉ net.arrived ∧ s.ssl < net.opened
    rw [htook.arrived, htook.opened]
    change Function.update t.streams id _ other = some s at hs
    by_cases hsame : other = id
    · rw [hsame, Function.update_self] at hs
      rw [← Option.some.inj hs, hssl, hlocal]
      exact ⟨hremote.1, hpos, hremote.2.2⟩
    · rw [Function.update_of_ne hsame] at hs
      exact h.remote other s hs
  · have hback : ∀ other s, (t.setStream id stream').streams other = some s →
        ∃ old, t.streams other = some old ∧ old.ssl = s.ssl := by
      intro other s hs
      change Function.update t.streams id _ other = some s at hs
      by_cases hsame : other = id
      · rw [hsame, Function.update_self] at hs
        rw [hsame]
        exact ⟨stream, hstream, by rw [← Option.some.inj hs, hssl]⟩
      · rw [Function.update_of_ne hsame] at hs
        exact ⟨s, hs, rfl⟩
    intro other other' s s' hs hs' hequal
    obtain ⟨old, hold, hssl⟩ := hback other s hs
    obtain ⟨old', hold', hssl'⟩ := hback other' s' hs'
    exact h.unique other other' old old' hold hold' (by rw [hssl, hssl', hequal])
  · change net.arrived.Nodup
    rw [htook.arrived]
    exact h.arrivedNodup
  · intro ssl hssl
    change ssl < net.opened ∧ net.up ssl = _ ∧ _
    have hssl : ssl ∈ t.quic.arrived := htook.arrived ▸ hssl
    have hne : ssl ≠ stream.ssl := fun hsame => hremote.2.2.1 (hsame ▸ hssl)
    rw [htook.opened, htook.others ssl hne]
    exact h.arrived ssl hssl
  · intro ssl hssl
    change net.up ssl = [] ∧ _
    have hssl : t.quic.opened ≤ ssl := htook.opened ▸ hssl
    have hne : ssl ≠ stream.ssl := by
      have hlt := hremote.2.2.2
      omega
    rw [htook.others ssl hne]
    exact h.unopened ssl hssl
  · intro other hpending s hs
    change _ ∧ _ ++ net.up s.ssl = _
    change Function.update t.streams id _ other = some s at hs
    by_cases hsame : other = id
    · rw [hsame, Function.update_self] at hs
      rw [← Option.some.inj hs, hssl, hstored]
      refine ⟨hbalance.1, ?_⟩
      rw [List.append_assoc, ← htook.took]
      exact hbalance.2
    · rw [Function.update_of_ne hsame] at hs
      rw [hup other s hsame hs]
      exact h.pending other hpending s hs
  · intro other hnot s hs
    have hne : other ≠ id := fun hsame => hnot (hsame ▸ hid)
    change Function.update t.streams id _ other = some s at hs
    rw [Function.update_of_ne hne] at hs
    change _ ∧ _ ∧ _ ++ net.up s.ssl = _
    rw [hup other s hne hs]
    exact h.handed other hnot s hs
  · exact h.delivered

/-- A stream is destroyed; what is in flight on it does not matter any more. -/
theorem Accepts.remove (h : Accepts sent received t) (id : ℕ) (stream : SocketStream ℕ)
    (hstream : t.streams id = some stream) (net : Net)
    (hup : ∀ other, other ≠ stream.ssl → net.up other = t.quic.up other)
    (hopened : net.opened = t.quic.opened) (harrived : net.arrived = t.quic.arrived) :
    Accepts sent received { t.remove id with quic := net } := by
  have hremote := h.remote id stream hstream
  have hback : ∀ other s, (t.remove id).streams other = some s →
      other ≠ id ∧ t.streams other = some s := by
    intro other s hs
    change Function.update t.streams id none other = some s at hs
    by_cases hsame : other = id
    · rw [hsame, Function.update_self] at hs
      cases hs
    · rw [Function.update_of_ne hsame] at hs
      exact ⟨hsame, hs⟩
  have hapart : ∀ other s, (t.remove id).streams other = some s → net.up s.ssl = t.quic.up s.ssl := by
    intro other s hs
    obtain ⟨hne, hs⟩ := hback other s hs
    exact hup _ fun hsame => hne (h.unique other id s stream hs hstream hsame)
  constructor
  · intro other s hs
    change _ ∧ _ ∧ s.ssl ∉ net.arrived ∧ s.ssl < net.opened
    rw [harrived, hopened]
    exact h.remote other s (hback other s hs).2
  · intro other other' s s' hs hs' hequal
    exact h.unique other other' s s' (hback other s hs).2 (hback other' s' hs').2 hequal
  · change net.arrived.Nodup
    rw [harrived]
    exact h.arrivedNodup
  · intro ssl hssl
    change ssl < net.opened ∧ net.up ssl = _ ∧ _
    have hssl : ssl ∈ t.quic.arrived := harrived ▸ hssl
    rw [hopened, hup ssl fun hsame => hremote.2.2.1 (hsame ▸ hssl)]
    exact h.arrived ssl hssl
  · intro ssl hssl
    change net.up ssl = [] ∧ _
    have hssl : t.quic.opened ≤ ssl := hopened ▸ hssl
    have hne : ssl ≠ stream.ssl := by
      have hlt := hremote.2.2.2
      omega
    rw [hup ssl hne]
    exact h.unopened ssl hssl
  · intro other hpending s hs
    change _ ∧ _ ++ net.up s.ssl = _
    rw [hapart other s hs]
    exact h.pending other (List.mem_of_mem_erase hpending) s (hback other s hs).2
  · intro other hnot s hs
    obtain ⟨hne, hold⟩ := hback other s hs
    change _ ∧ _ ∧ _ ++ net.up s.ssl = _
    rw [hapart other s hs]
    exact h.handed other (fun hin => hnot ((List.mem_erase_of_ne hne).mpr hin)) s hold
  · exact h.delivered

/-- A stream that has arrived becomes pending, with nothing read from it. -/
theorem Accepts.arrive (h : Accepts sent received t) (ssl : ℕ) (hssl : ssl ∈ t.quic.arrived)
    (createdMs : UInt64) (net : Net) (hup : net.up = t.quic.up) (hopened : net.opened = t.quic.opened)
    (harrived : net.arrived = t.quic.arrived.erase ssl) :
    Accepts sent received { t with
      streams := Function.update t.streams t.allocated (some (incomingStream ssl createdMs))
      allocated := t.allocated+1
      pending := t.allocated :: t.pending
      quic := net } := by
  have hwaiting := h.arrived ssl hssl
  have hcases : ∀ id s,
      Function.update t.streams t.allocated (some (incomingStream ssl createdMs)) id = some s →
      (id = t.allocated ∧ s = incomingStream ssl createdMs) ∨
        (id ≠ t.allocated ∧ t.streams id = some s) := by
    intro id s hs
    by_cases hsame : id = t.allocated
    · rw [hsame, Function.update_self] at hs
      exact Or.inl ⟨hsame, (Option.some.inj hs).symm⟩
    · rw [Function.update_of_ne hsame] at hs
      exact Or.inr ⟨hsame, hs⟩
  have hother : ∀ id s, t.streams id = some s → s.ssl ≠ ssl := by
    intro id s hs hsame
    exact (h.remote id s hs).2.2.1 (hsame ▸ hssl)
  constructor
  · intro id s hs
    change _ ∧ _ ∧ s.ssl ∉ net.arrived ∧ s.ssl < net.opened
    rw [harrived, hopened]
    rcases hcases id s hs with ⟨_, hnew⟩ | ⟨_, hold⟩
    · rw [hnew]
      exact ⟨rfl, Nat.zero_le 8, h.arrivedNodup.not_mem_erase, hwaiting.1⟩
    · obtain ⟨hlocal, hpos, hout, hlt⟩ := h.remote id s hold
      exact ⟨hlocal, hpos, fun hin => hout (List.mem_of_mem_erase hin), hlt⟩
  · intro id id' s s' hs hs' hequal
    rcases hcases id s hs with ⟨hid, hnew⟩ | ⟨_, hold⟩
    · rcases hcases id' s' hs' with ⟨hid', _⟩ | ⟨_, hold'⟩
      · rw [hid, hid']
      · rw [hnew] at hequal
        exact absurd hequal.symm (hother id' s' hold')
    · rcases hcases id' s' hs' with ⟨_, hnew'⟩ | ⟨_, hold'⟩
      · rw [hnew'] at hequal
        exact absurd hequal (hother id s hold)
      · exact h.unique id id' s s' hold hold' hequal
  · change net.arrived.Nodup
    rw [harrived]
    exact h.arrivedNodup.erase ssl
  · intro other hin
    change other < net.opened ∧ net.up other = _ ∧ _
    rw [hopened, hup]
    have hin : other ∈ t.quic.arrived.erase ssl := harrived ▸ hin
    exact h.arrived other (List.mem_of_mem_erase hin)
  · intro other hle
    change net.up other = [] ∧ _
    have hle : t.quic.opened ≤ other := hopened ▸ hle
    rw [hup]
    exact h.unopened other hle
  · intro id hpending s hs
    change _ ∧ _ ++ net.up s.ssl = _
    rw [hup]
    rcases hcases id s hs with ⟨_, hnew⟩ | ⟨hne, hold⟩
    · rw [hnew]
      exact ⟨hwaiting.2.2, hwaiting.2.1⟩
    · exact h.pending id ((List.mem_cons.mp hpending).resolve_left hne) s hold
  · intro id hout s hs
    change _ ∧ _ ∧ _ ++ net.up s.ssl = _
    rw [hup]
    rcases hcases id s hs with ⟨hid, _⟩ | ⟨_, hold⟩
    · exact absurd (hid ▸ List.mem_cons_self) hout
    · exact h.handed id (fun hin => hout (List.mem_cons_of_mem _ hin)) s hold
  · exact h.delivered

/-- A classified stream is handed out. -/
theorem Accepts.pop (h : Accepts sent received t) (id : ℕ) (hid : id ∈ t.pending)
    (stream : SocketStream ℕ) (hstream : t.streams id = some stream)
    (hfull : stream.prefacePos = 8)
    (hkind : socketStreamPrefaceDecode stream.preface.val = some stream.kind) :
    Accepts sent received { t with pending := t.pending.erase id } := by
  refine ⟨h.remote, h.unique, h.arrivedNodup, h.arrived, h.unopened, ?_, ?_, h.delivered⟩
  · intro other hother s hs
    exact h.pending other (List.mem_of_mem_erase hother) s hs
  · intro other hother s hs
    by_cases hsame : other = id
    · rw [hsame, hstream] at hs
      obtain ⟨hnothing, hbalance⟩ := h.pending id hid stream hstream
      rw [← Option.some.inj hs]
      refine ⟨hfull, hkind, ?_⟩
      have hwhole : stream.preface.val.take 8 = stream.preface.val :=
        List.take_of_length_le (Nat.le_of_eq stream.preface.property)
      rw [hfull, hwhole] at hbalance
      rw [hnothing, List.append_nil]
      exact hbalance
    · exact h.handed other (fun hin => hother ((List.mem_erase_of_ne hsame).mpr hin)) s hs

/-- The application reads from a stream that has been handed out. -/
theorem Accepts.readApp (h : Accepts sent received t) (id : ℕ) (hid : id ∉ t.pending)
    (stream : SocketStream ℕ) (hstream : t.streams id = some stream) (net : Net)
    (bytes : List UInt8) (htook : TookUp t.quic net stream.ssl bytes) :
    Accepts sent (Function.update received stream.ssl (received stream.ssl ++ bytes))
      { t with quic := net } := by
  have hremote := h.remote id stream hstream
  obtain ⟨hfull, hkind, hbalance⟩ := h.handed id hid stream hstream
  have hother : ∀ other s, t.streams other = some s → other ≠ id → s.ssl ≠ stream.ssl :=
    fun other s hs hne hsame => hne (h.unique other id s stream hs hstream hsame)
  have hsent : stream.preface.val ++ (received stream.ssl ++ bytes) ++ net.up stream.ssl =
      sent stream.ssl := by
    rw [← hbalance, htook.took]
    simp only [List.append_assoc]
  constructor
  · intro other s hs
    change _ ∧ _ ∧ s.ssl ∉ net.arrived ∧ s.ssl < net.opened
    rw [htook.arrived, htook.opened]
    exact h.remote other s hs
  · exact h.unique
  · change net.arrived.Nodup
    rw [htook.arrived]
    exact h.arrivedNodup
  · intro ssl hssl
    change ssl < net.opened ∧ net.up ssl = _ ∧ _
    have hssl : ssl ∈ t.quic.arrived := htook.arrived ▸ hssl
    have hne : ssl ≠ stream.ssl := fun hsame => hremote.2.2.1 (hsame ▸ hssl)
    rw [htook.opened, htook.others ssl hne, Function.update_of_ne hne]
    exact h.arrived ssl hssl
  · intro ssl hssl
    change net.up ssl = [] ∧ _
    have hssl : t.quic.opened ≤ ssl := htook.opened ▸ hssl
    have hne : ssl ≠ stream.ssl := by
      have hlt := hremote.2.2.2
      omega
    rw [htook.others ssl hne, Function.update_of_ne hne]
    exact h.unopened ssl hssl
  · intro other hpending s hs
    change _ ∧ _ ++ net.up s.ssl = _
    have hne : other ≠ id := fun hsame => hid (hsame ▸ hpending)
    rw [htook.others _ (hother other s hs hne), Function.update_of_ne (hother other s hs hne)]
    exact h.pending other hpending s hs
  · intro other hnot s hs
    change _ ∧ _ ∧ _ ++ net.up s.ssl = _
    by_cases hsame : other = id
    · rw [hsame, hstream] at hs
      rw [← Option.some.inj hs, Function.update_self]
      exact ⟨hfull, hkind, hsent⟩
    · rw [htook.others _ (hother other s hs hsame), Function.update_of_ne (hother other s hs hsame)]
      exact h.handed other hnot s hs
  · intro ssl
    by_cases hsame : ssl = stream.ssl
    · rw [hsame, Function.update_self, ← hsent, List.append_assoc,
        List.drop_append_of_le_length (Nat.le_of_eq stream.preface.property.symm),
        List.drop_of_length_le (Nat.le_of_eq stream.preface.property), List.nil_append]
      exact List.prefix_append _ _
    · rw [Function.update_of_ne hsame]
      exact h.delivered ssl

/-- Bytes are sent on a stream. -/
theorem Accepts.sendMore (h : Accepts sent received t) (net : Net) (ssl : ℕ) (bytes : List UInt8)
    (hlt : ssl < t.quic.opened) (hput : PutUp t.quic net ssl bytes) :
    Accepts (Function.update sent ssl (sent ssl ++ bytes)) received { t with quic := net } := by
  have hbalance : ∀ other (stored : List UInt8), stored ++ t.quic.up other = sent other →
      stored ++ net.up other = Function.update sent ssl (sent ssl ++ bytes) other := by
    intro other stored hstored
    by_cases hsame : other = ssl
    · rw [hsame] at hstored ⊢
      rw [Function.update_self, hput.put, ← List.append_assoc, hstored]
    · rw [Function.update_of_ne hsame, hput.others other hsame]
      exact hstored
  constructor
  · intro id s hs
    change _ ∧ _ ∧ s.ssl ∉ net.arrived ∧ s.ssl < net.opened
    rw [hput.arrived, hput.opened]
    exact h.remote id s hs
  · exact h.unique
  · change net.arrived.Nodup
    rw [hput.arrived]
    exact h.arrivedNodup
  · intro other hother
    change other < net.opened ∧ net.up other = _ ∧ _
    have hother : other ∈ t.quic.arrived := hput.arrived ▸ hother
    obtain ⟨hopened, hup, hnone⟩ := h.arrived other hother
    rw [hput.opened]
    exact ⟨hopened, hbalance other [] hup, hnone⟩
  · intro other hother
    change net.up other = [] ∧ _
    have hother : t.quic.opened ≤ other := hput.opened ▸ hother
    have hne : other ≠ ssl := by omega
    rw [hput.others other hne, Function.update_of_ne hne]
    exact h.unopened other hother
  · intro id hid s hs
    obtain ⟨hnone, hstored⟩ := h.pending id hid s hs
    exact ⟨hnone, hbalance s.ssl _ hstored⟩
  · intro id hid s hs
    obtain ⟨hfull, hkind, hstored⟩ := h.handed id hid s hs
    exact ⟨hfull, hkind, hbalance s.ssl _ hstored⟩
  · intro other
    by_cases hsame : other = ssl
    · rw [hsame, Function.update_self]
      apply (h.delivered ssl).trans
      rw [List.drop_append]
      exact List.prefix_append _ _
    · rw [Function.update_of_ne hsame]
      exact h.delivered other

/-- A stream is opened. -/
theorem Accepts.openMore (h : Accepts sent received t) (net : Net) (hup : net.up = t.quic.up)
    (hopened : net.opened = t.quic.opened+1)
    (harrived : net.arrived = t.quic.arrived ++ [t.quic.opened]) :
    Accepts sent received { t with quic := net } := by
  have hnew := h.unopened t.quic.opened (Nat.le_refl _)
  have hmem : ∀ ssl, ssl ∈ net.arrived ↔ ssl ∈ t.quic.arrived ∨ ssl = t.quic.opened := by
    intro ssl
    rw [harrived, List.mem_append, List.mem_singleton]
  constructor
  · intro id s hs
    change _ ∧ _ ∧ s.ssl ∉ net.arrived ∧ s.ssl < net.opened
    obtain ⟨hlocal, hpos, hout, hlt⟩ := h.remote id s hs
    rw [hmem, hopened]
    refine ⟨hlocal, hpos, ?_, by omega⟩
    intro hin
    rcases hin with hin | hin
    · exact hout hin
    · omega
  · exact h.unique
  · change net.arrived.Nodup
    rw [harrived]
    apply List.nodup_append.mpr
    refine ⟨h.arrivedNodup, List.nodup_singleton _, ?_⟩
    intro ssl hssl other hother hsame
    have hlt := (h.arrived ssl hssl).1
    rw [hsame, List.mem_singleton.mp hother] at hlt
    exact Nat.lt_irrefl _ hlt
  · intro ssl hssl
    change ssl < net.opened ∧ net.up ssl = _ ∧ _
    rw [hopened, hup]
    rcases (hmem ssl).mp hssl with hin | hin
    · obtain ⟨hlt, hrest⟩ := h.arrived ssl hin
      exact ⟨by omega, hrest⟩
    · rw [hin]
      exact ⟨by omega, hnew.1.trans hnew.2.1.symm, hnew.2.2⟩
  · intro ssl hssl
    change net.up ssl = [] ∧ _
    have hssl : t.quic.opened+1 ≤ ssl := hopened ▸ hssl
    rw [hup]
    exact h.unopened ssl (by omega)
  · intro id hid s hs
    change _ ∧ _ ++ net.up s.ssl = _
    rw [hup]
    exact h.pending id hid s hs
  · intro id hid s hs
    change _ ∧ _ ∧ _ ++ net.up s.ssl = _
    rw [hup]
    exact h.handed id hid s hs
  · exact h.delivered

end Acceptor

end LibAtrinik.Stream

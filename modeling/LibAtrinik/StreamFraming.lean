import LibAtrinik.StreamLanes

namespace LibAtrinik.Stream

section AcceptorCalls

variable {sent received : ℕ → List UInt8} {handed : List ℕ} {t t' : Table ℕ Net}

/-- The acceptor's part of the connection, with the bytes in flight to the opener. -/
structure AcceptorSide (sent received down : ℕ → List UInt8) (opened : ℕ) (handed : List ℕ)
    (t : Table ℕ Net) : Prop where
  inv : t.Inv handed
  accepts : Accepts sent received t
  down : t.quic.down = down
  opened : t.quic.opened = opened

variable {down : ℕ → List UInt8} {opened : ℕ}

theorem acceptStream_some (s s' : Net) (ssl : ℕ) (h : Net.acceptStream s = (some ssl, s')) :
    ssl ∈ s.arrived ∧ s'.up = s.up ∧ s'.down = s.down ∧ s'.opened = s.opened ∧
      s'.arrived = s.arrived.erase ssl := by
  unfold Net.acceptStream at h
  split at h
  · cases h
  · split at h
    · cases h
    · rename_i found hfound
      obtain ⟨hssl, hs⟩ := Prod.mk.inj h
      rw [← Option.some.inj hssl, ← hs]
      exact ⟨List.mem_of_getElem? hfound, rfl, rfl, rfl, rfl⟩

theorem acceptStream_none (s s' : Net) (h : Net.acceptStream s = (none, s')) :
    s'.up = s.up ∧ s'.down = s.down ∧ s'.opened = s.opened ∧ s'.arrived = s.arrived := by
  unfold Net.acceptStream at h
  split at h
  · rw [← (Prod.mk.inj h).2]
    exact ⟨rfl, rfl, rfl, rfl⟩
  · split at h
    · rw [← (Prod.mk.inj h).2]
      exact ⟨rfl, rfl, rfl, rfl⟩
    · cases h

theorem AcceptorSide.pollStream (h : AcceptorSide sent received down opened handed t)
    (now : UInt64) (id : ℕ) (hid : id ∈ t.pending) :
    AcceptorSide sent received down opened handed (t.pollStream Net.acceptor now id) := by
  have hinv := pollStream_inv Net.acceptor now h.inv id hid
  obtain ⟨stream, hstream⟩ := (h.inv.live id).mpr (Or.inl hid)
  have hread := prefaceRead_spec Net.acceptor stream t.quic
  have hpos := (h.accepts.remote id stream hstream).2.1
  obtain ⟨bytes, htook, hstored⟩ := prefaceRead_took hread hpos
  rcases pollStream_cases Net.acceptor now t id stream hstream with
    ⟨_, hsame⟩ | ⟨_, _, hrejected⟩ | ⟨_, _, hkept⟩
  · rwa [hsame]
  · rw [received_reject] at hrejected
    rw [hrejected] at hinv ⊢
    refine ⟨hinv, ?_, htook.opposite.trans h.down, htook.opened.trans h.opened⟩
    exact h.accepts.remove id stream hstream _ htook.others htook.opened htook.arrived
  · rw [hkept] at hinv ⊢
    refine ⟨hinv, ?_, htook.opposite.trans h.down, htook.opened.trans h.opened⟩
    have hpos' : (prefaceRead Net.acceptor stream t.quic).2.1.prefacePos ≤ 8 := by
      rcases hread.outcome hpos with hdone | hmore
      · exact Nat.le_of_eq hdone.2.1
      · exact hmore.2.1
    exact h.accepts.receive id hid stream _ hstream _ bytes htook hread.frame.1
      hread.frame.2.2.2.2 hpos' hstored

theorem AcceptorSide.pollIncoming (h : AcceptorSide sent received down opened handed t) (ssl : ℕ)
    (net : Net) (hroom : t.pending.length < socketQuicPendingStreamMax)
    (hoffer : Net.acceptor.acceptStream t.quic = (some ssl, net)) :
    AcceptorSide sent received down opened handed
      (({ t with quic := net } : Table ℕ Net).pollIncoming Net.acceptor ssl) := by
  obtain ⟨hssl, hup, hdown, hopened, harrived⟩ := acceptStream_some t.quic net ssl hoffer
  have hinv := pollIncoming_inv Net.acceptor (h.inv.withQuic net) hroom ssl
  have harrive := h.accepts.arrive ssl hssl net.now.1 net.now.2 hup hopened harrived
  have hread := prefaceRead_spec Net.acceptor (incomingStream ssl net.now.1) net.now.2
  obtain ⟨bytes, htook, hstored⟩ := prefaceRead_took hread (Nat.zero_le 8)
  have hself : Function.update t.streams t.allocated (some (incomingStream ssl net.now.1))
      t.allocated = some (incomingStream ssl net.now.1) := Function.update_self _ _ _
  by_cases hbad : (firstRead Net.acceptor net ssl).1 = false ∧
      (firstRead Net.acceptor net ssl).2.1.prefacePos = 8
  · have hrejected : ({ t with quic := net } : Table ℕ Net).pollIncoming Net.acceptor ssl = _ :=
      if_pos hbad
    rw [received_reject] at hrejected
    rw [hrejected] at hinv ⊢
    refine ⟨hinv, ?_, htook.opposite.trans (hdown.trans h.down),
      htook.opened.trans (hopened.trans h.opened)⟩
    exact harrive.remove t.allocated _ hself _ htook.others htook.opened htook.arrived
  · have hkept : ({ t with quic := net } : Table ℕ Net).pollIncoming Net.acceptor ssl = _ :=
      if_neg hbad
    rw [hkept] at hinv ⊢
    refine ⟨hinv, ?_, htook.opposite.trans (hdown.trans h.down),
      htook.opened.trans (hopened.trans h.opened)⟩
    have hpos' : (prefaceRead Net.acceptor (incomingStream ssl net.now.1)
        net.now.2).2.1.prefacePos ≤ 8 := by
      rcases hread.outcome (Nat.zero_le 8) with hdone | hmore
      · exact Nat.le_of_eq hdone.2.1
      · exact hmore.2.1
    exact harrive.receive t.allocated List.mem_cons_self _ _ hself _ bytes htook hread.frame.1
      hread.frame.2.2.2.2 hpos' hstored

theorem AcceptorSide.poll (h : AcceptorSide sent received down opened handed t) (fuel : ℕ)
    (hpoll : t.poll Net.acceptor fuel = some t') :
    AcceptorSide sent received down opened handed t' := by
  apply poll_rule Net.acceptor (AcceptorSide sent received down opened handed) _ _ _ _ fuel t'
    h.inv.nodup h hpoll
  · intro t h
    exact ⟨h.inv.withQuic _, h.accepts.withQuic _ rfl rfl rfl, h.down, h.opened⟩
  · intro now t id h hid
    exact h.pollStream now id hid
  · intro t net h hoffer
    obtain ⟨hup, hdown, hopened, harrived⟩ := acceptStream_none t.quic net hoffer
    exact ⟨h.inv.withQuic net, h.accepts.withQuic net hup hopened harrived, hdown.trans h.down,
      hopened.trans h.opened⟩
  · intro t ssl net h hroom hoffer
    exact h.pollIncoming ssl net hroom hoffer

theorem AcceptorSide.accept (h : AcceptorSide sent received down opened handed t) (fuel : ℕ)
    (kind : SocketStreamKind) (result : Option ℕ × Table ℕ Net)
    (haccept : t.accept Net.acceptor fuel kind = some result) :
    AcceptorSide sent received down opened (result.1.toList ++ handed) result.2 := by
  have hinv := accept_inv Net.acceptor fuel h.inv kind result haccept
  unfold Table.accept at haccept
  split_ifs at haccept
  · rw [← Option.some.inj haccept]
    exact h
  · obtain ⟨t₁, hpoll, hresult⟩ := Option.bind_eq_some_iff.mp haccept
    have hpolled := h.poll fuel hpoll
    rw [← Option.some.inj hresult] at hinv ⊢
    refine ⟨hinv, ?_, ?_, ?_⟩
    · unfold Table.handOut
      split
      · rename_i id hfind
        have hid := List.mem_of_find?_eq_some hfind
        obtain ⟨stream, hstream⟩ := (hpolled.inv.live id).mpr (Or.inl hid)
        have hclassified := List.find?_some hfind
        rw [classified_eq kind hstream] at hclassified
        have hfull := (of_decide_eq_true hclassified).2
        have hdecode : socketStreamPrefaceDecode stream.preface.val = some stream.kind := by
          rcases hpolled.inv.settled id hid stream hstream with hless | hdone
          · omega
          · exact hdone.2
        exact hpolled.accepts.pop id hid stream hstream hfull hdecode
      · exact hpolled.accepts
    · unfold Table.handOut
      split <;> exact hpolled.down
    · unfold Table.handOut
      split <;> exact hpolled.opened

end AcceptorCalls

section OpenerCalls

/-- The opener's part of the connection: on each stream it has sent a part of the preface of the
stream's kind, and what its application has written once the preface is complete. -/
structure OpenerSide (kinds : ℕ → Option SocketStreamKind) (sent written : ℕ → List UInt8)
    (handed : List ℕ) (t : Table ℕ Net) : Prop where
  inv : t.Inv handed
  pending : t.pending = []
  streams : ∀ id stream, t.streams id = some stream → stream.isLocal = true ∧
    kinds stream.ssl = some stream.kind ∧
    socketStreamPrefaceEncode stream.kind = .ok stream.preface ∧ stream.prefacePos ≤ 8 ∧
    (stream.prefacePos < 8 → written stream.ssl = []) ∧
    sent stream.ssl = stream.preface.val.take stream.prefacePos ++ written stream.ssl
  unique : ∀ id id' stream stream', t.streams id = some stream → t.streams id' = some stream' →
    stream.ssl = stream'.ssl → id = id'
  opened : ∀ ssl kind, kinds ssl = some kind → ssl < t.quic.opened ∧ ∃ preface pos,
    socketStreamPrefaceEncode kind = .ok preface ∧ pos ≤ 8 ∧ (pos < 8 → written ssl = []) ∧
    sent ssl = preface.val.take pos ++ written ssl
  unopened : ∀ ssl, t.quic.opened ≤ ssl → kinds ssl = none ∧ sent ssl = [] ∧ written ssl = []

variable {kinds : ℕ → Option SocketStreamKind} {sent written : ℕ → List UInt8} {handed : List ℕ}
  {t : Table ℕ Net}

theorem OpenerSide.withQuic (h : OpenerSide kinds sent written handed t) (net : Net)
    (hopened : net.opened = t.quic.opened) :
    OpenerSide kinds sent written handed { t with quic := net } := by
  refine ⟨h.inv.withQuic net, h.pending, h.streams, h.unique, ?_, ?_⟩
  · change ∀ ssl kind, _ → ssl < net.opened ∧ _
    rw [hopened]
    exact h.opened
  · change ∀ ssl, net.opened ≤ ssl → _
    rw [hopened]
    exact h.unopened

/-- More is sent on a stream: a part of the preface, or bytes of the application after it. -/
theorem OpenerSide.advance (h : OpenerSide kinds sent written handed t) (id : ℕ)
    (stream : SocketStream ℕ) (hstream : t.streams id = some stream) (net : Net)
    (bytes more : List UInt8) (pos : ℕ) (hopened : net.opened = t.quic.opened) (hpos : pos ≤ 8)
    (hless : pos < 8 → written stream.ssl ++ more = [])
    (hsent : sent stream.ssl ++ bytes =
      stream.preface.val.take pos ++ (written stream.ssl ++ more)) :
    OpenerSide kinds (Function.update sent stream.ssl (sent stream.ssl ++ bytes))
      (Function.update written stream.ssl (written stream.ssl ++ more)) handed
      { t.setStream id { stream with prefacePos := pos } with quic := net } := by
  obtain ⟨hlocal, hkind, hencode, _, _, _⟩ := h.streams id stream hstream
  have hlt := (h.opened _ _ hkind).1
  have hin : id ∈ t.pending ∨ id ∈ handed := (h.inv.live id).mp ⟨stream, hstream⟩
  have hcases : ∀ other s,
      (t.setStream id { stream with prefacePos := pos }).streams other = some s →
      (other = id ∧ s = { stream with prefacePos := pos }) ∨
        (other ≠ id ∧ t.streams other = some s) := by
    intro other s hs
    change Function.update t.streams id _ other = some s at hs
    by_cases hsame : other = id
    · rw [hsame, Function.update_self] at hs
      exact Or.inl ⟨hsame, (Option.some.inj hs).symm⟩
    · rw [Function.update_of_ne hsame] at hs
      exact Or.inr ⟨hsame, hs⟩
  have hother : ∀ other s, other ≠ id → t.streams other = some s → s.ssl ≠ stream.ssl :=
    fun other s hne hs hsame => hne (h.unique other id s stream hs hstream hsame)
  refine ⟨?_, h.pending, ?_, ?_, ?_, ?_⟩
  · apply (h.inv.setStream id _ hin _).withQuic
    intro hpending
    rw [h.pending] at hpending
    exact absurd hpending List.not_mem_nil
  · intro other s hs
    rcases hcases other s hs with ⟨_, hnew⟩ | ⟨hne, hold⟩
    · rw [hnew]
      change _ ∧ _ ∧ _ ∧ pos ≤ 8 ∧ (pos < 8 → Function.update written _ _ stream.ssl = []) ∧
        Function.update sent _ _ stream.ssl =
          stream.preface.val.take pos ++ Function.update written _ _ stream.ssl
      rw [Function.update_self, Function.update_self]
      exact ⟨hlocal, hkind, hencode, hpos, hless, hsent⟩
    · rw [Function.update_of_ne (hother other s hne hold),
        Function.update_of_ne (hother other s hne hold)]
      exact h.streams other s hold
  · have hback : ∀ other s,
        (t.setStream id { stream with prefacePos := pos }).streams other = some s →
        ∃ old, t.streams other = some old ∧ old.ssl = s.ssl := by
      intro other s hs
      rcases hcases other s hs with ⟨hid, hnew⟩ | ⟨_, hold⟩
      · rw [hid, hnew]
        exact ⟨stream, hstream, rfl⟩
      · exact ⟨s, hold, rfl⟩
    intro other other' s s' hs hs' hequal
    obtain ⟨old, hold, hssl⟩ := hback other s hs
    obtain ⟨old', hold', hssl'⟩ := hback other' s' hs'
    exact h.unique other other' old old' hold hold' (by rw [hssl, hssl', hequal])
  · intro ssl kind hsome
    change ssl < net.opened ∧ _
    rw [hopened]
    by_cases hsame : ssl = stream.ssl
    · rw [hsame] at hsome ⊢
      rw [Function.update_self, Function.update_self]
      rw [hkind] at hsome
      rw [← Option.some.inj hsome]
      exact ⟨hlt, stream.preface, pos, hencode, hpos, hless, hsent⟩
    · rw [Function.update_of_ne hsame, Function.update_of_ne hsame]
      exact h.opened ssl kind hsome
  · intro ssl hssl
    have hssl : t.quic.opened ≤ ssl := hopened ▸ hssl
    have hne : ssl ≠ stream.ssl := by omega
    rw [Function.update_of_ne hne, Function.update_of_ne hne]
    exact h.unopened ssl hssl

/-- Before anything else a call writes what is left of the preface. -/
theorem OpenerSide.preface (h : OpenerSide kinds sent written handed t) (id : ℕ)
    (stream : SocketStream ℕ) (hstream : t.streams id = some stream) :
    ∃ bytes, PutUp t.quic (prefaceWrite Net.opener stream t.quic).2.2 stream.ssl bytes ∧
      OpenerSide kinds (Function.update sent stream.ssl (sent stream.ssl ++ bytes)) written handed
        (t.prefaced id (prefaceWrite Net.opener stream t.quic)) ∧
      ((prefaceWrite Net.opener stream t.quic).1 = .ok →
        (prefaceWrite Net.opener stream t.quic).2.1.prefacePos = 8) := by
  obtain ⟨hlocal, _, _, hpos, hless, hsent⟩ := h.streams id stream hstream
  have hspec := prefaceWrite_spec Net.opener stream t.quic
  obtain ⟨bytes, hput, hpos', hmoved, hfull, hok⟩ := prefaceWrite_put hspec hpos
  refine ⟨bytes, hput, ?_, fun hstatus => hok hstatus hlocal⟩
  have hnothing : stream.prefacePos = 8 ∨ written stream.ssl = [] := by
    by_cases hlt : stream.prefacePos < 8
    · exact Or.inr (hless hlt)
    · exact Or.inl (by omega)
  have hadvance := h.advance id stream hstream (prefaceWrite Net.opener stream t.quic).2.2 bytes []
    (prefaceWrite Net.opener stream t.quic).2.1.prefacePos hput.opened hpos' (by
      intro hlt
      rw [List.append_nil]
      rcases hnothing with hdone | hnone
      · -- a complete preface stays complete
        have hlength := congrArg List.length hmoved
        rw [hfull hdone, hdone, List.append_nil, List.length_take, List.length_take,
          stream.preface.property] at hlength
        omega
      · exact hnone) (by
      rw [hsent, hmoved, List.append_nil]
      rcases hnothing with hdone | hnone
      · rw [hfull hdone, List.append_nil, List.append_nil]
      · rw [hnone, List.append_nil, List.append_nil])
  rw [List.append_nil, Function.update_eq_self] at hadvance
  rw [← hspec.frame] at hadvance
  exact hadvance

/-- The application of the opener writes. -/
theorem OpenerSide.write (h : OpenerSide kinds sent written handed t) (id : ℕ) (buf : List UInt8)
    (stream : SocketStream ℕ) (hstream : t.streams id = some stream) :
    ∃ bytes, PutUp t.quic (t.write Net.opener id buf).2.2.quic stream.ssl bytes ∧
      OpenerSide kinds (Function.update sent stream.ssl (sent stream.ssl ++ bytes))
        (Function.update written stream.ssl (written stream.ssl ++
          buf.take (t.write Net.opener id buf).2.1)) handed (t.write Net.opener id buf).2.2 := by
  obtain ⟨first, hfirst, hside, hok⟩ := h.preface id stream hstream
  unfold Table.write
  rw [hstream]
  dsimp only
  by_cases hstatus : (prefaceWrite Net.opener stream t.quic).1 ≠ .ok
  · rw [if_pos hstatus]
    refine ⟨first, hfirst, ?_⟩
    change OpenerSide kinds _ (Function.update written _ (_ ++ buf.take 0)) handed _
    rw [List.take_zero, List.append_nil, Function.update_eq_self]
    exact hside
  rw [if_neg hstatus]
  by_cases hempty : buf.length = 0
  · rw [if_pos hempty]
    refine ⟨first, hfirst, ?_⟩
    change OpenerSide kinds _ (Function.update written _ (_ ++ buf.take 0)) handed _
    rw [List.take_zero, List.append_nil, Function.update_eq_self]
    exact hside
  rw [if_neg hempty]
  let stream' := (prefaceWrite Net.opener stream t.quic).2.1
  have hframe := (prefaceWrite_spec Net.opener stream t.quic).frame
  have hssl : stream'.ssl = stream.ssl := by
    change (prefaceWrite Net.opener stream t.quic).2.1.ssl = _
    rw [hframe]
  have hself : (t.prefaced id (prefaceWrite Net.opener stream t.quic)).streams id =
      some stream' := Function.update_self _ _ _
  have hfull : stream'.prefacePos = 8 := hok (not_not.mp hstatus)
  have hsecond := writeEx_put (prefaceWrite Net.opener stream t.quic).2.2 stream.ssl buf
  obtain ⟨_, _, _, _, _, hsent⟩ := hside.streams id stream' hself
  rw [hssl, Function.update_self, hfull] at hsent
  have hadvance := hside.advance id stream' hself
    (Net.opener.writeEx (prefaceWrite Net.opener stream t.quic).2.2 stream.ssl buf).2
    (buf.take (amountWritten
      (Net.opener.writeEx (prefaceWrite Net.opener stream t.quic).2.2 stream.ssl buf).1))
    (buf.take (amountWritten
      (Net.opener.writeEx (prefaceWrite Net.opener stream t.quic).2.2 stream.ssl buf).1)) 8
    hsecond.opened (Nat.le_refl 8) (fun hlt => absurd hlt (Nat.lt_irrefl 8)) (by
      rw [hssl, Function.update_self, hsent, List.append_assoc])
  refine ⟨_, hfirst.trans hsecond, ?_⟩
  have hsame : (t.prefaced id (prefaceWrite Net.opener stream t.quic)).setStream id
      { stream' with prefacePos := 8 } = t.prefaced id (prefaceWrite Net.opener stream t.quic) := by
    have hstream' : ({ stream' with prefacePos := 8 } : SocketStream ℕ) = stream' := by
      rw [← hfull]
    have hstreams : Function.update (t.prefaced id
        (prefaceWrite Net.opener stream t.quic)).streams id (some stream') =
          (t.prefaced id (prefaceWrite Net.opener stream t.quic)).streams :=
      Function.update_eq_self_iff.mpr hself.symm
    rw [hstream']
    unfold Table.setStream
    rw [hstreams]
  rw [hsame, hssl, Function.update_self, Function.update_idem, List.append_assoc] at hadvance
  exact hadvance

/-- The application of the opener reads. -/
theorem OpenerSide.read (h : OpenerSide kinds sent written handed t) (id len : ℕ)
    (stream : SocketStream ℕ) (hstream : t.streams id = some stream) :
    ∃ bytes net, PutUp t.quic net stream.ssl bytes ∧
      TookDown net (t.read Net.opener id len).2.2.quic stream.ssl
        (t.read Net.opener id len).2.1 ∧
      OpenerSide kinds (Function.update sent stream.ssl (sent stream.ssl ++ bytes)) written handed
        (t.read Net.opener id len).2.2 := by
  obtain ⟨first, hfirst, hside, _⟩ := h.preface id stream hstream
  unfold Table.read
  rw [hstream]
  dsimp only
  by_cases hstatus : (prefaceWrite Net.opener stream t.quic).1 ≠ .ok
  · rw [if_pos hstatus]
    exact ⟨first, _, hfirst, Moved.nothing rfl rfl rfl rfl, hside⟩
  · rw [if_neg hstatus]
    have htook := readEx_took_down (prefaceWrite Net.opener stream t.quic).2.2 stream.ssl len
    exact ⟨first, _, hfirst, htook, hside.withQuic _ htook.opened⟩

theorem OpenerSide.destroy (h : OpenerSide kinds sent written handed t) (id : ℕ) :
    OpenerSide kinds sent written (handed.erase id) (t.remove id) := by
  have hback : ∀ other s, (t.remove id).streams other = some s → t.streams other = some s := by
    intro other s hs
    change Function.update t.streams id none other = some s at hs
    by_cases hsame : other = id
    · rw [hsame, Function.update_self] at hs
      cases hs
    · rwa [Function.update_of_ne hsame] at hs
  refine ⟨h.inv.remove id, ?_, ?_, ?_, h.opened, h.unopened⟩
  · change t.pending.erase id = []
    rw [h.pending]
    rfl
  · intro other s hs
    exact h.streams other s (hback other s hs)
  · intro other other' s s' hs hs' hequal
    exact h.unique other other' s s' (hback other s hs) (hback other' s' hs') hequal

/-- A stream is opened: the network gives it a new number. -/
theorem OpenerSide.openStream (h : OpenerSide kinds sent written handed t) (kind : SocketStreamKind) :
    ((t.openStream Net.opener kind).1 = none ∧
        (t.openStream Net.opener kind).2.quic.up = t.quic.up ∧
        (t.openStream Net.opener kind).2.quic.down = t.quic.down ∧
        (t.openStream Net.opener kind).2.quic.opened = t.quic.opened ∧
        (t.openStream Net.opener kind).2.quic.arrived = t.quic.arrived ∧
        OpenerSide kinds sent written handed (t.openStream Net.opener kind).2) ∨
      ∃ id stream, (t.openStream Net.opener kind).1 = some id ∧
        (t.openStream Net.opener kind).2.streams id = some stream ∧
        (t.openStream Net.opener kind).2.quic.up = t.quic.up ∧
        (t.openStream Net.opener kind).2.quic.down = t.quic.down ∧
        (t.openStream Net.opener kind).2.quic.opened = t.quic.opened+1 ∧
        (t.openStream Net.opener kind).2.quic.arrived = t.quic.arrived ++ [t.quic.opened] ∧
        OpenerSide (Function.update kinds stream.ssl (some kind)) sent written (id :: handed)
          (t.openStream Net.opener kind).2 := by
  have hinv := open_inv Net.opener h.inv kind
  unfold Table.openStream at hinv ⊢
  by_cases hclosed : t.transport ≠ .quicConnection ∨ t.connectionIdFinal = false ∨
      (kind ≠ .game ∧ kind ≠ .asset)
  · rw [if_pos hclosed]
    exact Or.inl ⟨rfl, rfl, rfl, rfl, rfl, h⟩
  rw [if_neg hclosed] at hinv ⊢
  have hnew : Net.opener.newStream t.quic = Net.newStream t.quic := rfl
  rw [hnew] at hinv ⊢
  unfold Net.newStream at hinv ⊢
  cases hnext : t.quic.next with
  | none =>
    left
    exact ⟨rfl, rfl, rfl, rfl, rfl, h.withQuic _ rfl⟩
  | some n =>
    rw [hnext] at hinv
    cases hencode : socketStreamPrefaceEncode kind with
    | error fault =>
      -- only the two kinds that may be opened have a preface
      exfalso
      apply hclosed
      right
      right
      unfold socketStreamPrefaceEncode at hencode
      split_ifs at hencode with hkind
      exact not_or.mp hkind
    | ok preface =>
      rw [hencode] at hinv
      right
      -- nothing is known of the new stream on the network yet
      have hfree := h.unopened t.quic.opened (Nat.le_refl _)
      have hcases : ∀ id stream, Function.update t.streams t.allocated (some
          { ssl := t.quic.opened, connection := true, next := none, kind, preface, prefacePos := 0,
            createdMs := t.quic.clock.headD 0, isLocal := true }) id = some stream →
          (id = t.allocated ∧ stream =
            { ssl := t.quic.opened, connection := true, next := none, kind, preface,
              prefacePos := 0, createdMs := t.quic.clock.headD 0, isLocal := true }) ∨
            t.streams id = some stream := by
        intro id stream hs
        by_cases hsame : id = t.allocated
        · rw [hsame, Function.update_self] at hs
          exact Or.inl ⟨hsame, (Option.some.inj hs).symm⟩
        · rw [Function.update_of_ne hsame] at hs
          exact Or.inr hs
      have hssl : ∀ id stream, t.streams id = some stream → stream.ssl ≠ t.quic.opened := by
        intro id stream hs hsame
        have hlt := (h.opened _ _ (h.streams id stream hs).2.1).1
        omega
      refine ⟨t.allocated, _, rfl, Function.update_self _ _ _, rfl, rfl, rfl, rfl, hinv, h.pending,
        ?_, ?_, ?_, ?_⟩
      · intro id stream hs
        rcases hcases id stream hs with ⟨_, hfresh⟩ | hold
        · rw [hfresh]
          refine ⟨rfl, Function.update_self _ _ _, hencode, Nat.zero_le 8, fun _ => hfree.2.2, ?_⟩
          change sent t.quic.opened = preface.val.take 0 ++ written t.quic.opened
          rw [hfree.2.1, hfree.2.2]
          rfl
        · have hold' := h.streams id stream hold
          rw [← Function.update_of_ne (hssl id stream hold) (some kind) kinds] at hold'
          exact hold'
      · intro id id' stream stream' hs hs' hequal
        rcases hcases id stream hs with ⟨hid, hfresh⟩ | hold
        · rcases hcases id' stream' hs' with ⟨hid', _⟩ | hold'
          · rw [hid, hid']
          · rw [hfresh] at hequal
            exact absurd hequal.symm (hssl id' stream' hold')
        · rcases hcases id' stream' hs' with ⟨_, hfresh'⟩ | hold'
          · rw [hfresh'] at hequal
            exact absurd hequal (hssl id stream hold)
          · exact h.unique id id' stream stream' hold hold' hequal
      · intro ssl kind' hsome
        change ssl < t.quic.opened+1 ∧ _
        change Function.update kinds t.quic.opened (some kind) ssl = _ at hsome
        by_cases hsame : ssl = t.quic.opened
        · rw [hsame, Function.update_self] at hsome
          rw [hsame, ← Option.some.inj hsome]
          refine ⟨Nat.lt_succ_self _, preface, 0, hencode, Nat.zero_le 8, fun _ => hfree.2.2, ?_⟩
          rw [hfree.2.1, hfree.2.2]
          rfl
        · rw [Function.update_of_ne hsame] at hsome
          obtain ⟨hlt, hrest⟩ := h.opened ssl kind' hsome
          exact ⟨by omega, hrest⟩
      · intro ssl hle
        have hle : t.quic.opened+1 ≤ ssl := hle
        have hne : ssl ≠ t.quic.opened := by omega
        change Function.update kinds t.quic.opened (some kind) ssl = none ∧ _
        rw [Function.update_of_ne hne]
        exact h.unopened ssl (by omega)

end OpenerCalls

section AcceptorTransfer

variable {sent received down : ℕ → List UInt8} {opened : ℕ} {handed : List ℕ} {t : Table ℕ Net}

/-- The preface of a stream that was accepted is not written. -/
theorem AcceptorSide.prefaceWrite (h : AcceptorSide sent received down opened handed t) (id : ℕ)
    (stream : SocketStream ℕ) (hstream : t.streams id = some stream) :
    prefaceWrite Net.acceptor stream t.quic = (.ok, stream, t.quic) ∧
      t.prefaced id (.ok, stream, t.quic) = t := by
  have hremote := (h.accepts.remote id stream hstream).1
  obtain ⟨hstatus, hsame, hquic⟩ := (prefaceWrite_spec Net.acceptor stream t.quic).remote hremote
  have hstreams : Function.update t.streams id (some stream) = t.streams :=
    Function.update_eq_self_iff.mpr hstream.symm
  refine ⟨Prod.ext hstatus (Prod.ext hsame hquic), ?_⟩
  unfold Table.prefaced Table.setStream
  rw [hstreams]

/-- The application of the acceptor reads. -/
theorem AcceptorSide.read (h : AcceptorSide sent received down opened handed t) (id len : ℕ)
    (hid : id ∈ handed) (stream : SocketStream ℕ) (hstream : t.streams id = some stream) :
    AcceptorSide sent (Function.update received stream.ssl
      (received stream.ssl ++ (t.read Net.acceptor id len).2.1)) down opened handed
        (t.read Net.acceptor id len).2.2 := by
  have hinv := read_inv Net.acceptor h.inv id len hid
  obtain ⟨hpreface, hprefaced⟩ := h.prefaceWrite id stream hstream
  have hnot : id ∉ t.pending := fun hpending => h.inv.apart id hpending hid
  have htook := readEx_took t.quic stream.ssl len
  unfold Table.read at hinv ⊢
  rw [hstream] at hinv ⊢
  dsimp only at hinv ⊢
  rw [hpreface, if_neg (not_not_intro rfl), hprefaced] at hinv ⊢
  exact ⟨hinv, h.accepts.readApp id hnot stream hstream _ _ htook, htook.opposite.trans h.down,
    htook.opened.trans h.opened⟩

/-- The application of the acceptor writes. -/
theorem AcceptorSide.write (h : AcceptorSide sent received down opened handed t) (id : ℕ)
    (buf : List UInt8) (hid : id ∈ handed) (stream : SocketStream ℕ)
    (hstream : t.streams id = some stream) :
    AcceptorSide sent received (Function.update down stream.ssl
      (down stream.ssl ++ buf.take (t.write Net.acceptor id buf).2.1)) opened handed
        (t.write Net.acceptor id buf).2.2 := by
  have hinv := write_inv Net.acceptor h.inv id buf hid
  obtain ⟨hpreface, hprefaced⟩ := h.prefaceWrite id stream hstream
  unfold Table.write at hinv ⊢
  rw [hstream] at hinv ⊢
  dsimp only at hinv ⊢
  rw [hpreface, if_neg (not_not_intro rfl), hprefaced] at hinv ⊢
  by_cases hempty : buf.length = 0
  · rw [if_pos hempty, List.take_zero, List.append_nil, Function.update_eq_self]
    exact h
  · rw [if_neg hempty] at hinv ⊢
    have hput := writeEx_put_down t.quic stream.ssl buf
    refine ⟨hinv, h.accepts.withQuic _ hput.opposite hput.opened hput.arrived, ?_,
      hput.opened.trans h.opened⟩
    funext ssl
    by_cases hsame : ssl = stream.ssl
    · rw [hsame, Function.update_self, ← h.down]
      exact hput.put
    · rw [Function.update_of_ne hsame, ← h.down]
      exact hput.others ssl hsame

theorem AcceptorSide.destroy (h : AcceptorSide sent received down opened handed t) (id : ℕ)
    (stream : SocketStream ℕ) (hstream : t.streams id = some stream) :
    AcceptorSide sent received down opened (handed.erase id) (t.remove id) :=
  ⟨h.inv.remove id, h.accepts.remove id stream hstream t.quic (fun _ _ => rfl) rfl rfl, h.down,
    h.opened⟩

end AcceptorTransfer

end LibAtrinik.Stream

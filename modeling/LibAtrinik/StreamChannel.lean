import LibAtrinik.StreamFraming

namespace LibAtrinik.Stream

/-- Both sides, the network between them, and for each stream its kind and what the applications
have written and read. -/
structure Channel where
  opener : State ℕ Net
  openerHanded : List ℕ
  acceptor : State ℕ Net
  acceptorHanded : List ℕ
  net : Net
  kinds : ℕ → Option SocketStreamKind
  written : ℕ → List UInt8
  received : ℕ → List UInt8
  answered : ℕ → List UInt8
  returned : ℕ → List UInt8

/-- The network's number of a stream. -/
def State.sslOf (st : State ℕ Net) (id : ℕ) : Option ℕ := (st.streams id).map SocketStream.ssl

/-- Bytes are added to what is known of a stream. -/
def appendAt (log : ℕ → List UInt8) (ssl : Option ℕ) (bytes : List UInt8) : ℕ → List UInt8 :=
  match ssl with
  | some ssl => Function.update log ssl (log ssl ++ bytes)
  | none => log

/-- The kinds after a stream has been opened. -/
def kindsAfter (kinds : ℕ → Option SocketStreamKind) (ssl : Option ℕ) (kind : SocketStreamKind) :
    ℕ → Option SocketStreamKind :=
  match ssl with
  | some ssl => Function.update kinds ssl (some kind)
  | none => kinds

/-- The opener has made a call. -/
def Channel.afterOpener (c : Channel) (call : Call) (answer : Answer) (st : State ℕ Net) : Channel :=
  { c with
    opener := st
    openerHanded := handedAfter c.openerHanded call answer
    net := st.quic
    kinds :=
      match call with
      | .openStream kind => kindsAfter c.kinds (answer.stream.bind st.sslOf) kind
      | _ => c.kinds
    written :=
      match call with
      | .write id buf => appendAt c.written (c.opener.sslOf id) (buf.take answer.amount)
      | _ => c.written
    returned :=
      match call with
      | .read id _ => appendAt c.returned (c.opener.sslOf id) answer.bytes
      | _ => c.returned }

/-- The acceptor has made a call. -/
def Channel.afterAcceptor (c : Channel) (call : Call) (answer : Answer) (st : State ℕ Net) :
    Channel :=
  { c with
    acceptor := st
    acceptorHanded := handedAfter c.acceptorHanded call answer
    net := st.quic
    answered :=
      match call with
      | .write id buf => appendAt c.answered (c.acceptor.sslOf id) (buf.take answer.amount)
      | _ => c.answered
    received :=
      match call with
      | .read id _ => appendAt c.received (c.acceptor.sslOf id) answer.bytes
      | _ => c.received }

/-- The calls of the side that opens the streams. -/
def OpenerCall : Call → Prop
  | .openStream _ => True
  | .read _ _ => True
  | .write _ _ => True
  | .destroy _ => True
  | _ => False

/-- The calls of the side that accepts them. -/
def AcceptorCall : Call → Prop
  | .poll => True
  | .accept _ => True
  | .read _ _ => True
  | .write _ _ => True
  | .destroy _ => True
  | _ => False

/-- The network does something else from now on, with the same bytes in flight. -/
def Net.reschedule (net : Net) (schedule : List (Option ℕ)) (clock : List UInt64) : Net :=
  { net with schedule, clock }

/-- What any interleaving of calls on both sides leads to. -/
inductive Connected : Channel → Prop where
  | start (openerTransport acceptorTransport : SocketTransport)
      (openerRole acceptorRole : SocketRole) (openerFinal acceptorFinal : Bool) :
      Connected
        { opener := State.start openerTransport openerRole openerFinal {}
          openerHanded := []
          acceptor := State.start acceptorTransport acceptorRole acceptorFinal {}
          acceptorHanded := []
          net := {}
          kinds := fun _ => none
          written := fun _ => []
          received := fun _ => []
          answered := fun _ => []
          returned := fun _ => [] }
  | opener {c : Channel} {call : Call} {schedule : List (Option ℕ)} {clock : List UInt64}
      {fuel : ℕ} {answer : Answer} {st : State ℕ Net} (h : Connected c) (hcall : OpenerCall call)
      (hallowed : Allowed c.opener c.openerHanded call)
      (hperform : perform Net.opener fuel
        { c.opener with quic := c.net.reschedule schedule clock } call = .ok (answer, st)) :
      Connected (c.afterOpener call answer st)
  | acceptor {c : Channel} {call : Call} {schedule : List (Option ℕ)} {clock : List UInt64}
      {fuel : ℕ} {answer : Answer} {st : State ℕ Net} (h : Connected c) (hcall : AcceptorCall call)
      (hallowed : Allowed c.acceptor c.acceptorHanded call)
      (hperform : perform Net.acceptor fuel
        { c.acceptor with quic := c.net.reschedule schedule clock } call = .ok (answer, st)) :
      Connected (c.afterAcceptor call answer st)

/-- The invariant: both sides are represented over the same network, and agree on what has been
sent. -/
structure Channel.Inv (c : Channel) (sent : ℕ → List UInt8) (opener acceptor : Table ℕ Net) :
    Prop where
  openerRep : Represents { c.opener with quic := c.net } opener
  acceptorRep : Represents { c.acceptor with quic := c.net } acceptor
  openerSide : OpenerSide c.kinds sent c.written c.openerHanded opener
  acceptorSide : AcceptorSide sent c.received c.net.down c.net.opened c.acceptorHanded acceptor
  balance : ∀ ssl, c.returned ssl ++ c.net.down ssl = c.answered ssl

variable {c : Channel} {sent : ℕ → List UInt8} {opener acceptor : Table ℕ Net}

theorem Channel.Inv.openerQuic (h : c.Inv sent opener acceptor) : opener.quic = c.net :=
  h.openerRep.quic.symm

theorem Channel.Inv.acceptorQuic (h : c.Inv sent opener acceptor) : acceptor.quic = c.net :=
  h.acceptorRep.quic.symm

/-- A new schedule changes nothing that the invariant is about. -/
theorem Channel.Inv.reschedule (h : c.Inv sent opener acceptor) (schedule : List (Option ℕ))
    (clock : List UInt64) :
    ({ c with net := c.net.reschedule schedule clock } : Channel).Inv sent
      { opener with quic := c.net.reschedule schedule clock }
      { acceptor with quic := c.net.reschedule schedule clock } := by
  have hopener := h.openerQuic
  have hacceptor := h.acceptorQuic
  refine ⟨h.openerRep.withQuic _, h.acceptorRep.withQuic _, ?_, ?_, h.balance⟩
  · apply h.openerSide.withQuic
    rw [hopener]
    rfl
  · refine ⟨h.acceptorSide.inv.withQuic _, ?_, rfl, rfl⟩
    apply h.acceptorSide.accepts.withQuic <;> rw [hacceptor] <;> rfl

theorem sslOf_eq {st : State ℕ Net} {net : Net} {t : Table ℕ Net}
    (h : Represents { st with quic := net } t) (id : ℕ) :
    st.sslOf id = (t.streams id).map SocketStream.ssl := by
  rw [h.streams, Option.map_map]
  rfl

theorem Channel.Inv.openerSsl (h : c.Inv sent opener acceptor) {id : ℕ} {stream : SocketStream ℕ}
    (hstream : opener.streams id = some stream) : c.opener.sslOf id = some stream.ssl := by
  rw [sslOf_eq h.openerRep, hstream]
  rfl

theorem Channel.Inv.acceptorSsl (h : c.Inv sent opener acceptor) {id : ℕ}
    {stream : SocketStream ℕ} (hstream : acceptor.streams id = some stream) :
    c.acceptor.sslOf id = some stream.ssl := by
  rw [sslOf_eq h.acceptorRep, hstream]
  rfl

theorem Channel.Inv.openerOpened (h : c.Inv sent opener acceptor) {id : ℕ}
    {stream : SocketStream ℕ} (hstream : opener.streams id = some stream) :
    stream.ssl < c.net.opened := by
  have hlt := (h.openerSide.opened _ _ (h.openerSide.streams id stream hstream).2.1).1
  rwa [h.openerQuic] at hlt

/-- The bytes that the opener has put into the queue are sent. -/
theorem Channel.Inv.sendMore (h : c.Inv sent opener acceptor) {net net' : Net} {ssl : ℕ}
    {bytes : List UInt8} (hput : PutUp c.net net ssl bytes) (hlt : ssl < c.net.opened)
    (hup : net'.up = net.up) (hopened : net'.opened = net.opened)
    (harrived : net'.arrived = net.arrived) :
    AcceptorSide (Function.update sent ssl (sent ssl ++ bytes)) c.received net'.down net'.opened
      c.acceptorHanded { acceptor with quic := net' } := by
  have hside := h.acceptorSide
  have hacceptor := h.acceptorQuic
  have hmore := hside.accepts.sendMore net ssl bytes (hacceptor ▸ hlt) (hacceptor ▸ hput)
  exact ⟨hside.inv.withQuic _, hmore.withQuic net' hup hopened harrived, rfl, rfl⟩

/-- The bytes that the opener takes from the other queue are returned. -/
theorem Channel.Inv.returnMore (h : c.Inv sent opener acceptor) {net net' : Net} {ssl : ℕ}
    {bytes : List UInt8} (hdown : net.down = c.net.down) (htook : TookDown net net' ssl bytes)
    (other : ℕ) :
    appendAt c.returned (some ssl) bytes other ++ net'.down other = c.answered other := by
  change Function.update c.returned ssl _ other ++ _ = _
  by_cases hlane : other = ssl
  · rw [hlane, Function.update_self, List.append_assoc, ← htook.took, hdown]
    exact h.balance ssl
  · rw [Function.update_of_ne hlane, htook.others other hlane, hdown]
    exact h.balance other

/-- The bytes that the acceptor puts into it are answered. -/
theorem Channel.Inv.answerMore (h : c.Inv sent opener acceptor) (ssl : ℕ) (bytes : List UInt8)
    (other : ℕ) :
    c.returned other ++ Function.update c.net.down ssl (c.net.down ssl ++ bytes) other =
      appendAt c.answered (some ssl) bytes other := by
  change _ = Function.update c.answered ssl _ other
  by_cases hlane : other = ssl
  · rw [hlane, Function.update_self, Function.update_self, ← List.append_assoc, h.balance]
  · rw [Function.update_of_ne hlane, Function.update_of_ne hlane]
    exact h.balance other

section Calls

variable {fuel : ℕ} {answer : Answer} {st : State ℕ Net} {opener' acceptor' : Table ℕ Net}

/-- The opener opens a stream, or is refused one. -/
theorem Channel.Inv.openerOpens (h : c.Inv sent opener acceptor) (kind : SocketStreamKind)
    (hcall : opener.perform Net.opener fuel (.openStream kind) = some (answer, opener'))
    (hrep : Represents st opener') : ∃ sent' opener' acceptor',
      (c.afterOpener (.openStream kind) answer st).Inv sent' opener' acceptor' := by
  obtain ⟨hanswer, hsame⟩ := Prod.mk.inj (Option.some.inj hcall)
  have hquic : opener'.quic = st.quic := hrep.quic.symm
  have hopener := h.openerQuic
  have hacceptor := h.acceptorQuic
  have hside := h.acceptorSide
  have hacceptorRep := h.acceptorRep.withQuic st.quic
  rcases h.openerSide.openStream kind with
    ⟨hnone, hup, hdown, hopen, harrived, hopenerSide⟩ |
    ⟨id, stream, hsome, hstream, hup, hdown, hopen, harrived, hopenerSide⟩
  · rw [hsame, hquic, hopener] at hup hdown hopen harrived
    rw [hsame] at hopenerSide
    refine ⟨sent, opener', { acceptor with quic := st.quic }, hrep, hacceptorRep, ?_, ?_, ?_⟩
    · change OpenerSide (kindsAfter c.kinds (answer.stream.bind st.sslOf) kind) sent c.written
        (answer.stream.toList ++ c.openerHanded) opener'
      rw [← hanswer, hnone]
      exact hopenerSide
    · exact ⟨hside.inv.withQuic _, hside.accepts.withQuic st.quic (hacceptor ▸ hup)
        (hacceptor ▸ hopen) (hacceptor ▸ harrived), rfl, rfl⟩
    · change ∀ ssl, c.returned ssl ++ st.quic.down ssl = c.answered ssl
      rw [hdown]
      exact h.balance
  · rw [hsame, hquic, hopener] at hup hdown hopen harrived
    rw [hsame] at hopenerSide hstream
    have hssl : st.sslOf id = some stream.ssl := by
      have heq : Represents { st with quic := st.quic } opener' := hrep
      rw [sslOf_eq heq, hstream]
      rfl
    refine ⟨sent, opener', { acceptor with quic := st.quic }, hrep, hacceptorRep, ?_, ?_, ?_⟩
    · change OpenerSide (kindsAfter c.kinds (answer.stream.bind st.sslOf) kind) sent c.written
        (answer.stream.toList ++ c.openerHanded) opener'
      rw [← hanswer, hsome]
      change OpenerSide (kindsAfter c.kinds (st.sslOf id) kind) sent c.written
        (id :: c.openerHanded) opener'
      rw [hssl]
      exact hopenerSide
    · exact ⟨hside.inv.withQuic _, hside.accepts.openMore st.quic (hacceptor ▸ hup)
        (hacceptor ▸ hopen) (hacceptor ▸ harrived), rfl, rfl⟩
    · change ∀ ssl, c.returned ssl ++ st.quic.down ssl = c.answered ssl
      rw [hdown]
      exact h.balance

/-- A read of the opener may put the rest of the preface into one queue before it takes bytes from
the other one. -/
theorem Channel.Inv.openerReads (h : c.Inv sent opener acceptor) {id : ℕ} (len : ℕ)
    (hid : id ∈ c.openerHanded)
    (hcall : opener.perform Net.opener fuel (.read id len) = some (answer, opener'))
    (hrep : Represents st opener') : ∃ sent' opener' acceptor',
      (c.afterOpener (.read id len) answer st).Inv sent' opener' acceptor' := by
  obtain ⟨hanswer, hsame⟩ := Prod.mk.inj (Option.some.inj hcall)
  have hquic : opener'.quic = st.quic := hrep.quic.symm
  obtain ⟨stream, hstream⟩ := (h.openerSide.inv.live id).mpr (Or.inr hid)
  obtain ⟨bytes, net, hput, htook, hopenerSide⟩ := h.openerSide.read id len stream hstream
  have hbytes : answer.bytes = (opener.read Net.opener id len).2.1 := by rw [← hanswer]
  rw [hsame, ← hbytes, hquic] at htook
  rw [hsame] at hopenerSide
  rw [h.openerQuic] at hput
  refine ⟨_, opener', { acceptor with quic := st.quic }, hrep, h.acceptorRep.withQuic st.quic, ?_,
    h.sendMore hput (h.openerOpened hstream) htook.opposite htook.opened htook.arrived, ?_⟩
  · change OpenerSide c.kinds _ c.written (answer.stream.toList ++ c.openerHanded) opener'
    rw [← hanswer]
    exact hopenerSide
  · change ∀ ssl, appendAt c.returned (c.opener.sslOf id) answer.bytes ssl ++ st.quic.down ssl =
      c.answered ssl
    rw [h.openerSsl hstream]
    exact h.returnMore hput.opposite htook

theorem Channel.Inv.openerWrites (h : c.Inv sent opener acceptor) {id : ℕ} (buf : List UInt8)
    (hid : id ∈ c.openerHanded)
    (hcall : opener.perform Net.opener fuel (.write id buf) = some (answer, opener'))
    (hrep : Represents st opener') : ∃ sent' opener' acceptor',
      (c.afterOpener (.write id buf) answer st).Inv sent' opener' acceptor' := by
  obtain ⟨hanswer, hsame⟩ := Prod.mk.inj (Option.some.inj hcall)
  have hquic : opener'.quic = st.quic := hrep.quic.symm
  obtain ⟨stream, hstream⟩ := (h.openerSide.inv.live id).mpr (Or.inr hid)
  obtain ⟨bytes, hput, hopenerSide⟩ := h.openerSide.write id buf stream hstream
  have hamount : answer.amount = (opener.write Net.opener id buf).2.1 := by rw [← hanswer]
  rw [hsame, hquic, h.openerQuic] at hput
  rw [hsame, ← hamount] at hopenerSide
  refine ⟨_, opener', { acceptor with quic := st.quic }, hrep, h.acceptorRep.withQuic st.quic, ?_,
    h.sendMore hput (h.openerOpened hstream) rfl rfl rfl, ?_⟩
  · change OpenerSide c.kinds _ (appendAt c.written (c.opener.sslOf id) (buf.take answer.amount))
      (answer.stream.toList ++ c.openerHanded) opener'
    rw [h.openerSsl hstream]
    have hnone : answer.stream = none := by rw [← hanswer]
    rw [hnone]
    exact hopenerSide
  · change ∀ ssl, c.returned ssl ++ st.quic.down ssl = c.answered ssl
    rw [hput.opposite]
    exact h.balance

theorem Channel.Inv.openerDestroys (h : c.Inv sent opener acceptor) {id : ℕ}
    (hid : id ∈ opener.pending ∨ id ∈ c.openerHanded)
    (hcall : opener.perform Net.opener fuel (.destroy id) = some (answer, opener'))
    (hrep : Represents st opener') : ∃ sent' opener' acceptor',
      (c.afterOpener (.destroy id) answer st).Inv sent' opener' acceptor' := by
  obtain ⟨stream, hstream⟩ := (h.openerSide.inv.live id).mpr hid
  rw [perform_destroy Net.opener fuel id stream hstream] at hcall
  obtain ⟨hanswer, hsame⟩ := Prod.mk.inj (Option.some.inj hcall)
  have hquic : opener'.quic = st.quic := hrep.quic.symm
  have hnetSame : st.quic = c.net := by
    rw [← hquic, ← hsame, ← h.openerQuic]
    rfl
  have hopenerSide := h.openerSide.destroy id
  have hgone : opener.remove id = opener' := hsame
  rw [hgone] at hopenerSide
  refine ⟨sent, opener', { acceptor with quic := st.quic }, hrep,
    h.acceptorRep.withQuic st.quic, hopenerSide, ?_, ?_⟩
  · change AcceptorSide sent c.received st.quic.down st.quic.opened c.acceptorHanded _
    rw [hnetSame, ← h.acceptorQuic]
    exact ⟨h.acceptorSide.inv, h.acceptorSide.accepts, rfl, rfl⟩
  · change ∀ ssl, c.returned ssl ++ st.quic.down ssl = c.answered ssl
    rw [hnetSame]
    exact h.balance

/-- A call of the opener keeps the invariant. -/
theorem Channel.Inv.afterOpener (h : c.Inv sent opener acceptor) (fuel : ℕ) (call : Call)
    (answer : Answer) (st : State ℕ Net) (hcall : OpenerCall call)
    (hallowed : Allowed c.opener c.openerHanded call)
    (hperform : perform Net.opener fuel { c.opener with quic := c.net } call = .ok (answer, st)) :
    ∃ sent' opener' acceptor', (c.afterOpener call answer st).Inv sent' opener' acceptor' := by
  have hallowed' : Allowed { c.opener with quic := c.net } c.openerHanded call := by
    cases call <;> exact hallowed
  have htable := hallowed'.table h.openerRep
  obtain ⟨opener', hopener', hrep⟩ := perform_ok Net.opener h.openerRep h.openerSide.inv htable
    hperform
  cases call with
  | openStream kind => exact h.openerOpens kind hopener' hrep
  | read id len => exact h.openerReads len htable hopener' hrep
  | write id buf => exact h.openerWrites buf htable hopener' hrep
  | destroy id => exact h.openerDestroys htable hopener' hrep
  | poll => exact hcall.elim
  | accept => exact hcall.elim
  | prepare => exact hcall.elim

/-- The side of the opener only depends on how many streams there are. -/
theorem Channel.Inv.openerKept (h : c.Inv sent opener acceptor) {net : Net}
    (hopened : net.opened = c.net.opened) :
    OpenerSide c.kinds sent c.written c.openerHanded { opener with quic := net } :=
  h.openerSide.withQuic net (by rw [hopened, h.openerQuic])

/-- Calls of the acceptor that only take up or give up streams. -/
theorem Channel.Inv.acceptorQuiet (h : c.Inv sent opener acceptor) {handed : List ℕ}
    (hrep : Represents st acceptor')
    (hafter : AcceptorSide sent c.received c.net.down c.net.opened handed acceptor') :
    ∃ opener' acceptor',
      ({ c with acceptor := st, acceptorHanded := handed, net := st.quic } : Channel).Inv sent
        opener' acceptor' := by
  have hquic : acceptor'.quic = st.quic := hrep.quic.symm
  have hdown : st.quic.down = c.net.down := hquic ▸ hafter.down
  have hopened : st.quic.opened = c.net.opened := hquic ▸ hafter.opened
  refine ⟨_, acceptor', h.openerRep.withQuic st.quic, hrep, h.openerKept hopened, ?_, ?_⟩
  · change AcceptorSide sent c.received st.quic.down st.quic.opened handed acceptor'
    rw [hdown, hopened]
    exact hafter
  · change ∀ ssl, c.returned ssl ++ st.quic.down ssl = c.answered ssl
    rw [hdown]
    exact h.balance

theorem Channel.Inv.acceptorReads (h : c.Inv sent opener acceptor) {id : ℕ} (len : ℕ)
    (hid : id ∈ c.acceptorHanded)
    (hcall : acceptor.perform Net.acceptor fuel (.read id len) = some (answer, acceptor'))
    (hrep : Represents st acceptor') :
    ∃ opener' acceptor', (c.afterAcceptor (.read id len) answer st).Inv sent opener' acceptor' := by
  obtain ⟨hanswer, hsame⟩ := Prod.mk.inj (Option.some.inj hcall)
  have hquic : acceptor'.quic = st.quic := hrep.quic.symm
  obtain ⟨stream, hstream⟩ := (h.acceptorSide.inv.live id).mpr (Or.inr hid)
  have hafter := h.acceptorSide.read id len hid stream hstream
  have hbytes : answer.bytes = (acceptor.read Net.acceptor id len).2.1 := by rw [← hanswer]
  have hnone : answer.stream = none := by rw [← hanswer]
  rw [hsame, ← hbytes] at hafter
  have hdown : st.quic.down = c.net.down := hquic ▸ hafter.down
  have hopened : st.quic.opened = c.net.opened := hquic ▸ hafter.opened
  refine ⟨_, acceptor', h.openerRep.withQuic st.quic, hrep, h.openerKept hopened, ?_, ?_⟩
  · change AcceptorSide sent (appendAt c.received (c.acceptor.sslOf id) answer.bytes) st.quic.down
      st.quic.opened (answer.stream.toList ++ c.acceptorHanded) acceptor'
    rw [h.acceptorSsl hstream, hdown, hopened, hnone]
    exact hafter
  · change ∀ ssl, c.returned ssl ++ st.quic.down ssl = c.answered ssl
    rw [hdown]
    exact h.balance

theorem Channel.Inv.acceptorWrites (h : c.Inv sent opener acceptor) {id : ℕ} (buf : List UInt8)
    (hid : id ∈ c.acceptorHanded)
    (hcall : acceptor.perform Net.acceptor fuel (.write id buf) = some (answer, acceptor'))
    (hrep : Represents st acceptor') :
    ∃ opener' acceptor', (c.afterAcceptor (.write id buf) answer st).Inv sent opener' acceptor' := by
  obtain ⟨hanswer, hsame⟩ := Prod.mk.inj (Option.some.inj hcall)
  have hquic : acceptor'.quic = st.quic := hrep.quic.symm
  obtain ⟨stream, hstream⟩ := (h.acceptorSide.inv.live id).mpr (Or.inr hid)
  have hafter := h.acceptorSide.write id buf hid stream hstream
  have hamount : answer.amount = (acceptor.write Net.acceptor id buf).2.1 := by rw [← hanswer]
  have hnone : answer.stream = none := by rw [← hanswer]
  rw [hsame, ← hamount] at hafter
  have hdown := hafter.down
  have hopened : st.quic.opened = c.net.opened := hquic ▸ hafter.opened
  rw [hquic] at hdown
  refine ⟨_, acceptor', h.openerRep.withQuic st.quic, hrep, h.openerKept hopened, ?_, ?_⟩
  · change AcceptorSide sent c.received st.quic.down st.quic.opened
      (answer.stream.toList ++ c.acceptorHanded) acceptor'
    rw [hdown, hopened, hnone]
    exact hafter
  · change ∀ ssl, c.returned ssl ++ st.quic.down ssl =
      appendAt c.answered (c.acceptor.sslOf id) (buf.take answer.amount) ssl
    rw [h.acceptorSsl hstream, hdown]
    exact h.answerMore stream.ssl _

/-- A call of the acceptor keeps the invariant. -/
theorem Channel.Inv.afterAcceptor (h : c.Inv sent opener acceptor) (fuel : ℕ) (call : Call)
    (answer : Answer) (st : State ℕ Net) (hcall : AcceptorCall call)
    (hallowed : Allowed c.acceptor c.acceptorHanded call)
    (hperform : perform Net.acceptor fuel { c.acceptor with quic := c.net } call =
      .ok (answer, st)) :
    ∃ opener' acceptor', (c.afterAcceptor call answer st).Inv sent opener' acceptor' := by
  have hallowed' : Allowed { c.acceptor with quic := c.net } c.acceptorHanded call := by
    cases call <;> exact hallowed
  have htable := hallowed'.table h.acceptorRep
  obtain ⟨acceptor', hacceptor', hrep⟩ := perform_ok Net.acceptor h.acceptorRep h.acceptorSide.inv
    htable hperform
  have hside := h.acceptorSide
  cases call with
  | poll =>
    obtain ⟨t', hpoll, hresult⟩ := Option.bind_eq_some_iff.mp hacceptor'
    obtain ⟨hanswer, hsame⟩ := Prod.mk.inj (Option.some.inj hresult)
    have hafter := hside.poll fuel hpoll
    rw [hsame] at hafter
    rw [← hanswer]
    exact h.acceptorQuiet hrep hafter
  | accept kind =>
    obtain ⟨result, haccept, hresult⟩ := Option.bind_eq_some_iff.mp hacceptor'
    obtain ⟨hanswer, hsame⟩ := Prod.mk.inj (Option.some.inj hresult)
    have hafter := hside.accept fuel kind result haccept
    rw [hsame] at hafter
    rw [← hanswer]
    exact h.acceptorQuiet hrep hafter
  | read id len => exact h.acceptorReads len htable hacceptor' hrep
  | write id buf => exact h.acceptorWrites buf htable hacceptor' hrep
  | destroy id =>
    obtain ⟨stream, hstream⟩ := (hside.inv.live id).mpr htable
    rw [perform_destroy Net.acceptor fuel id stream hstream] at hacceptor'
    obtain ⟨hanswer, hsame⟩ := Prod.mk.inj (Option.some.inj hacceptor')
    have hafter := hside.destroy id stream hstream
    have hgone : acceptor.remove id = acceptor' := hsame
    rw [hgone] at hafter
    exact h.acceptorQuiet hrep hafter
  | prepare => exact hcall.elim
  | openStream => exact hcall.elim

end Calls

theorem connected_inv (h : Connected c) : ∃ sent opener acceptor, c.Inv sent opener acceptor := by
  induction h with
  | start openerTransport acceptorTransport openerRole acceptorRole openerFinal acceptorFinal =>
    have hopenerRep := @represents_start ℕ Net openerTransport openerRole openerFinal {}
    have hacceptorRep := @represents_start ℕ Net acceptorTransport acceptorRole acceptorFinal {}
    refine ⟨fun _ => [], _, _, hopenerRep, hacceptorRep, ?_, ?_, fun _ => rfl⟩
    · refine ⟨inv_start _ _ _ _, rfl, ?_, ?_, ?_, fun _ _ => ⟨rfl, rfl, rfl⟩⟩
      · intro id stream hstream
        cases hstream
      · intro id id' stream stream' hstream
        cases hstream
      · intro ssl kind hkind
        cases hkind
    · refine ⟨inv_start _ _ _ _, ?_, rfl, rfl⟩
      refine ⟨?_, ?_, List.nodup_nil, ?_, fun _ _ => ⟨rfl, rfl, rfl⟩, ?_, ?_, fun _ => List.nil_prefix⟩
      · intro id stream hstream
        cases hstream
      · intro id id' stream stream' hstream
        cases hstream
      · intro ssl hssl
        exact absurd hssl List.not_mem_nil
      · intro id hid
        exact absurd hid List.not_mem_nil
      · intro id _ stream hstream
        cases hstream
  | @opener c call schedule clock fuel answer st _ hcall hallowed hperform ih =>
    obtain ⟨sent, opener, acceptor, hinv⟩ := ih
    exact (hinv.reschedule schedule clock).afterOpener fuel call answer st hcall hallowed hperform
  | @acceptor c call schedule clock fuel answer st _ hcall hallowed hperform ih =>
    obtain ⟨sent, opener, acceptor, hinv⟩ := ih
    obtain ⟨opener', acceptor', hinv'⟩ := (hinv.reschedule schedule clock).afterAcceptor fuel call
      answer st hcall hallowed hperform
    exact ⟨sent, opener', acceptor', hinv'⟩

/-- A whole preface at the beginning of what has been sent is the one that the opener sends. -/
theorem preface_of_sent (preface stored : Preface) (pos : ℕ) (hpos : pos ≤ 8)
    (written rest : List UInt8) (hless : pos < 8 → written = [])
    (h : stored.val ++ rest = preface.val.take pos ++ written) :
    stored = preface ∧ rest = written := by
  have hfull : pos = 8 := by
    by_contra hne
    have hlength := congrArg List.length h
    rw [hless (by omega), List.length_append, List.length_append, List.length_take,
      stored.property, preface.property, List.length_nil] at hlength
    omega
  rw [hfull, List.take_of_length_le (Nat.le_of_eq preface.property)] at h
  obtain ⟨hsame, hrest⟩ := List.append_inj h (stored.property.trans preface.property.symm)
  exact ⟨Subtype.ext hsame, hrest⟩

/-- The acceptor has not classified a stream, or it has classified it with the kind that it was
opened with; and each application has read a prefix of what the other one has written. -/
theorem framing_transparent (h : Connected c) (ssl : ℕ) (kind : SocketStreamKind)
    (hkind : c.kinds ssl = some kind) :
    (∀ id stream, c.acceptor.streams id = some stream → stream.ssl = ssl →
      (stream.kind = .unknown ∧ id ∉ c.acceptorHanded) ∨ stream.kind = kind) ∧
    c.received ssl <+: c.written ssl ∧ c.returned ssl <+: c.answered ssl := by
  obtain ⟨sent, opener, acceptor, hinv⟩ := connected_inv h
  obtain ⟨_, preface, pos, hencode, hpos, hless, hsent⟩ := hinv.openerSide.opened ssl kind hkind
  have hside := hinv.acceptorSide
  have hdecode := decode_encode kind preface hencode
  refine ⟨?_, ?_, ?_⟩
  · intro id linked hlinked hssl
    have hstream : acceptor.streams id = some linked.unlinked := by
      rw [hinv.acceptorRep.streams]
      change (c.acceptor.streams id).map _ = _
      rw [hlinked]
      rfl
    have hlane : linked.unlinked.ssl = ssl := hssl
    by_cases hid : id ∈ acceptor.pending
    · rcases hside.inv.settled id hid _ hstream with ⟨hunknown, _⟩ | ⟨hfull, hkind⟩
      · exact Or.inl ⟨hunknown, hside.inv.apart id hid⟩
      · -- the preface has arrived as a whole
        obtain ⟨_, hbalance⟩ := hside.accepts.pending id hid _ hstream
        rw [hfull, List.take_of_length_le (Nat.le_of_eq linked.unlinked.preface.property), hlane,
          hsent] at hbalance
        obtain ⟨hsame, _⟩ := preface_of_sent preface _ pos hpos _ _ hless hbalance
        rw [hsame, hdecode] at hkind
        exact Or.inr (Option.some.inj hkind).symm
    · obtain ⟨_, hkind, hbalance⟩ := hside.accepts.handed id hid _ hstream
      rw [hlane, hsent, List.append_assoc] at hbalance
      obtain ⟨hsame, _⟩ := preface_of_sent preface _ pos hpos _ _ hless hbalance
      rw [hsame, hdecode] at hkind
      exact Or.inr (Option.some.inj hkind).symm
  · have hdelivered := hside.accepts.delivered ssl
    rw [hsent] at hdelivered
    by_cases hfull : pos < 8
    · rw [hless hfull, List.append_nil, List.drop_of_length_le (by
        rw [List.length_take]
        omega)] at hdelivered
      rw [List.prefix_nil.mp hdelivered]
      exact List.nil_prefix
    · have hall : preface.val.take pos = preface.val :=
        List.take_of_length_le (by rw [preface.property]; omega)
      rw [hall, List.drop_append_of_le_length (Nat.le_of_eq preface.property.symm),
        List.drop_of_length_le (Nat.le_of_eq preface.property), List.nil_append] at hdelivered
      exact hdelivered
  · rw [← hinv.balance ssl]
    exact List.prefix_append _ _

/-- The opener makes a call that returns. -/
def Channel.openerCalls (c : Channel) (schedule : List (Option ℕ)) (call : Call) : Channel :=
  let result := after Net.opener 2 { c.opener with quic := c.net.reschedule schedule [] } call
  c.afterOpener call result.1 result.2

/-- The acceptor makes a call that returns. -/
def Channel.acceptorCalls (c : Channel) (schedule : List (Option ℕ)) (call : Call) : Channel :=
  let result := after Net.acceptor 2 { c.acceptor with quic := c.net.reschedule schedule [] } call
  c.afterAcceptor call result.1 result.2

theorem Connected.openerCalls (h : Connected c) (schedule : List (Option ℕ)) (call : Call)
    (hcall : OpenerCall call) (hallowed : Allowed c.opener c.openerHanded call)
    (hok : (perform Net.opener 2 { c.opener with quic := c.net.reschedule schedule [] }
      call).isOk = true) : Connected (c.openerCalls schedule call) :=
  h.opener hcall hallowed (perform_after Net.opener 2 _ call hok)

theorem Connected.acceptorCalls (h : Connected c) (schedule : List (Option ℕ)) (call : Call)
    (hcall : AcceptorCall call) (hallowed : Allowed c.acceptor c.acceptorHanded call)
    (hok : (perform Net.acceptor 2 { c.acceptor with quic := c.net.reschedule schedule [] }
      call).isOk = true) : Connected (c.acceptorCalls schedule call) :=
  h.acceptor hcall hallowed (perform_after Net.acceptor 2 _ call hok)

/-- A game stream whose preface is written in two pieces, together with two bytes of which the
acceptor reads one. -/
theorem framing_transparent_pieces :
    ∃ c, Connected c ∧ c.kinds 0 = some .game ∧ c.received 0 = [104] ∧
      c.received 0 <+: c.written 0 := by
  let start : Channel :=
    { opener := State.start .quicConnection .client true ({} : Net), openerHanded := []
      acceptor := State.start .quicConnection .server true ({} : Net), acceptorHanded := []
      net := {}, kinds := fun _ => none, written := fun _ => [], received := fun _ => []
      answered := fun _ => [], returned := fun _ => [] }
  let opened := start.openerCalls [some 0] (.openStream .game)
  let written := opened.openerCalls [some 3, some 5, some 2] (.write 0 [104, 105])
  let accepted := written.acceptorCalls [some 0, some 8, none] (.accept .game)
  let read := accepted.acceptorCalls [some 1] (.read 0 10)
  have hstart : Connected start :=
    .start .quicConnection .quicConnection .client .server true true
  have hopened : Connected opened :=
    hstart.openerCalls [some 0] (.openStream .game) trivial trivial (by decide +kernel)
  have hhanded : 0 ∈ opened.openerHanded := by decide +kernel
  have hwritten : Connected written :=
    hopened.openerCalls [some 3, some 5, some 2] (.write 0 [104, 105]) trivial hhanded
      (by decide +kernel)
  have haccepted : Connected accepted :=
    hwritten.acceptorCalls [some 0, some 8, none] (.accept .game) trivial trivial
      (by decide +kernel)
  have hhanded : 0 ∈ accepted.acceptorHanded := by decide +kernel
  have hread : Connected read :=
    haccepted.acceptorCalls [some 1] (.read 0 10) trivial hhanded (by decide +kernel)
  have hkind : read.kinds 0 = some .game := by decide +kernel
  have hreceived : read.received 0 = [104] := by decide +kernel
  exact ⟨read, hread, hkind, hreceived, (framing_transparent hread 0 .game hkind).2.1⟩

end LibAtrinik.Stream

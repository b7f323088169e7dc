import LibAtrinik.StreamRefinement

namespace LibAtrinik.Stream

open IntrusiveList

variable {Ssl σ : Type} {st : State Ssl σ} {t : Table Ssl σ} (env : Quic Ssl σ)

section Accept

/-- Whether a stream has been classified with a kind. -/
def Table.classified (t : Table Ssl σ) (kind : SocketStreamKind) (id : ℕ) : Bool :=
  match t.streams id with
  | some stream => stream.kind = kind ∧ stream.prefacePos = 8
  | none => false

theorem classified_eq {id : ℕ} {stream : SocketStream Ssl} (kind : SocketStreamKind)
    (hid : t.streams id = some stream) :
    t.classified kind id = decide (stream.kind = kind ∧ stream.prefacePos = 8) := by
  rw [Table.classified, hid]

/-- The first classified stream is handed out. -/
def Table.handOut (t : Table Ssl σ) (kind : SocketStreamKind) : Option ℕ × Table Ssl σ :=
  match t.pending.find? (t.classified kind) with
  | some id => (some id, { t with pending := t.pending.erase id })
  | none => (none, t)

theorem Represents.classified (h : Represents st t) (kind : SocketStreamKind) {id : ℕ}
    {linked : SocketStream Ssl} (hlinked : st.streams id = some linked) :
    t.classified kind id = decide (linked.kind = kind ∧ linked.prefacePos = 8) := by
  have hstream : t.streams id = some linked.unlinked := by
    rw [h.streams, hlinked]
    rfl
  have hclassified := classified_eq kind hstream
  exact hclassified

/-- The first stream that passes the test of the code is the first one with the kind. -/
theorem Represents.find_some (h : Represents st t) (kind : SocketStreamKind) {before after : List ℕ}
    {id : ℕ} {linked : SocketStream Ssl} (hsplit : t.pending = before ++ id :: after)
    (hlinked : st.streams id = some linked)
    (htest : decide (linked.kind = kind ∧ linked.prefacePos = 8) = true)
    (hbefore : ∀ other ∈ before, ∀ stream, st.streams other = some stream →
      decide (stream.kind = kind ∧ stream.prefacePos = 8) = false) :
    t.pending.find? (t.classified kind) = some id := by
  apply List.find?_eq_some_iff_append.mpr
  refine ⟨?_, before, after, hsplit, ?_⟩
  · rw [h.classified kind hlinked]
    exact htest
  · intro other hother
    obtain ⟨stream, hstream⟩ := h.listed.stream other (hsplit ▸ List.mem_append_left _ hother)
    rw [h.classified kind hstream, hbefore other hother stream hstream]
    rfl

theorem Represents.find_none (h : Represents st t) (kind : SocketStreamKind)
    (hnone : ∀ id ∈ t.pending, ∀ stream, st.streams id = some stream →
      decide (stream.kind = kind ∧ stream.prefacePos = 8) = false) :
    t.pending.find? (t.classified kind) = none := by
  apply List.find?_eq_none.mpr
  intro id hid
  obtain ⟨linked, hlinked⟩ := h.listed.stream id hid
  rw [h.classified kind hlinked, hnone id hid linked hlinked]
  decide

/-- A pending stream is listed once, so that erasing it leaves what stands on both sides of it. -/
theorem Represents.erase_pending (h : Represents st t) {before after : List ℕ} {id : ℕ}
    (hsplit : t.pending = before ++ id :: after) :
    id ∉ before ++ after ∧ t.pending.erase id = before ++ after := by
  have hnodup := h.listed.nodup
  rw [hsplit] at hnodup
  have hperm : (before ++ id :: after).Perm (id :: (before ++ after)) := List.perm_middle
  have hnot := (List.nodup_cons.mp (hperm.nodup_iff.mp hnodup)).1
  refine ⟨hnot, ?_⟩
  rw [hsplit, List.erase_append_right _ (fun hmem => hnot (List.mem_append_left _ hmem)),
    List.erase_cons_head]

theorem acceptPending_spec (h : Represents st t) (kind : SocketStreamKind) :
    ∃ st', acceptPending st kind = .ok ((t.handOut kind).1, st') ∧
      Represents st' (t.handOut kind).2 := by
  unfold acceptPending Table.handOut
  rcases findLink_spec (fun _ stream => stream.kind = kind ∧ stream.prefacePos = 8) .head
    st.sc.pendingStreams t.pending st.allocated rfl h.listed h.length_le with hnone | hfound
  · rw [hnone.1, h.find_none kind hnone.2]
    exact ⟨st, rfl, h⟩
  · obtain ⟨before, id, after, linked, hsplit, hlinked, htest, hbefore, hresult⟩ := hfound
    have hfind := h.find_some kind hsplit hlinked htest hbefore
    obtain ⟨hnot, herase⟩ := h.erase_pending hsplit
    have hlisted := h.listed
    rw [hsplit] at hlisted
    obtain ⟨st₁, hstore, hlisted₁, htable₁, hcount₁, hid₁⟩ :=
      storeLink_spec before after id linked hlisted hlinked
    -- the link of the one before it, its own link, and then the counter
    let st₂ := st₁.setStream id { linked with next := none }
    have hcount : st₂.sc.pendingStreamCount ≠ 0 := by
      change st₁.sc.pendingStreamCount ≠ 0
      rw [hcount₁, h.count, hsplit, List.length_append, List.length_cons]
      omega
    have hstreams : Option.map SocketStream.unlinked ∘ st₂.streams =
        Option.map SocketStream.unlinked ∘ st₁.streams := by
      change _ ∘ Function.update _ _ _ = _
      rw [Function.comp_update]
      apply Function.update_eq_self_iff.mpr
      rw [Function.comp_apply, hid₁]
      rfl
    rw [hresult, hfind]
    refine ⟨{ st₂ with sc := { st₂.sc with pendingStreamCount := st₂.sc.pendingStreamCount-1 } },
      ?_, ?_, ?_, ?_, h.below, h.connected⟩
    · change (st.load id >>= fun stream => _) = _
      rw [load_eq hlinked]
      change (st.storeLink (lastLink .head before) linked.next >>= fun st => _) = _
      rw [hstore]
      change (st₁.load id >>= fun stream => _) = _
      rw [load_eq hid₁]
      change (st₂.countDown >>= fun st => _) = _
      rw [countDown_eq hcount]
      rfl
    · change Seg some st₂.links st₁.sc.pendingStreams (t.pending.erase id) none
      rw [herase]
      apply Seg.congr hlisted₁
      intro other hother
      have hne : other ≠ id := fun hsame => hnot (hsame ▸ hother)
      change (Function.update st₁.streams id _ other).map _ = _
      rw [Function.update_of_ne hne]
      rfl
    · change st₁.sc.pendingStreamCount-1 = (t.pending.erase id).length
      rw [hcount₁, h.count, herase, hsplit]
      simp only [List.length_append, List.length_cons]
      omega
    · have hafter : ∀ pending, ({ st₂ with sc := { st₂.sc with
          pendingStreamCount := st₂.sc.pendingStreamCount-1 } } : State Ssl σ).table pending =
            st₁.table pending := by
        intro pending
        simp only [State.table, hstreams]
        rfl
      rw [hafter, htable₁]
      have hold := h.table
      rw [← hold]
      rfl

/-- The same answer, with a table that is represented. -/
def SameAnswer {α : Type} (r : α × State Ssl σ) (r' : α × Table Ssl σ) : Prop :=
  r.1 = r'.1 ∧ Represents r.2 r'.2

def Table.accept (fuel : ℕ) (t : Table Ssl σ) (kind : SocketStreamKind) :
    Option (Option ℕ × Table Ssl σ) :=
  if t.transport ≠ .quicConnection ∨ t.connectionIdFinal = false then some (none, t)
  else t.poll env fuel >>= fun t => some (t.handOut kind)

theorem Represents.transport (h : Represents st t) : st.sc.transport = t.transport := by
  rw [← h.table]
  rfl

theorem Represents.connectionIdFinal (h : Represents st t) :
    st.sc.connectionIdFinal = t.connectionIdFinal := by
  rw [← h.table]
  rfl

theorem Represents.role (h : Represents st t) : st.sc.role = t.role := by
  rw [← h.table]
  rfl

theorem accept_agrees (fuel : ℕ) (h : Represents st t) (kind : SocketStreamKind) :
    Agrees SameAnswer (socketStreamAccept env fuel st kind) (t.accept env fuel kind) := by
  unfold socketStreamAccept Table.accept
  rw [h.transport, h.connectionIdFinal]
  split_ifs
  · exact ⟨rfl, h⟩
  · apply agrees_bind (poll_agrees env fuel h)
    intro st₁ t₁ hrep
    obtain ⟨st', haccept, hrep'⟩ := acceptPending_spec hrep kind
    rw [haccept]
    exact ⟨rfl, hrep'⟩

end Accept

section Open

def Table.openStream (t : Table Ssl σ) (kind : SocketStreamKind) : Option ℕ × Table Ssl σ :=
  if t.transport ≠ .quicConnection ∨ t.connectionIdFinal = false ∨
      (kind ≠ .game ∧ kind ≠ .asset) then (none, t)
  else
    match env.newStream t.quic, socketStreamPrefaceEncode kind with
    | (some ssl, quic), .ok preface =>
      (some t.allocated, ({ t with quic } : Table Ssl σ).allocate env ssl kind preface true)
    | (_, quic), _ => (none, { t with quic })

theorem open_spec (h : Represents st t) (kind : SocketStreamKind) :
    ∃ st', socketStreamOpen env st kind = .ok ((t.openStream env kind).1, st') ∧
      Represents st' (t.openStream env kind).2 := by
  unfold socketStreamOpen Table.openStream
  rw [h.transport, h.connectionIdFinal, h.quic]
  by_cases hclosed : t.transport ≠ .quicConnection ∨ t.connectionIdFinal = false ∨
      (kind ≠ .game ∧ kind ≠ .asset)
  · rw [if_pos hclosed, if_pos hclosed]
    exact ⟨st, rfl, h⟩
  · rw [if_neg hclosed, if_neg hclosed]
    have hkind : kind = .game ∨ kind = .asset := by
      by_contra hno
      push Not at hno
      exact hclosed (Or.inr (Or.inr hno))
    obtain ⟨preface, hpreface⟩ : ∃ preface, socketStreamPrefaceEncode kind = .ok preface := by
      rw [socketStreamPrefaceEncode, if_pos hkind]
      exact ⟨_, rfl⟩
    rcases env.newStream t.quic with ⟨offer, quic⟩
    cases offer with
    | none => exact ⟨_, rfl, h.withQuic quic⟩
    | some ssl =>
      obtain ⟨st', hallocate, hrep⟩ := allocate_spec env (h.withQuic quic) ssl kind preface true
        hpreface
      refine ⟨st', ?_, ?_⟩
      · change (socketStreamAllocate env { st with quic } ssl kind true >>= fun result => _) = _
        rw [hallocate, hpreface]
        rfl
      · rw [hpreface]
        exact hrep

end Open

section Prepare

def Table.acquireGame (fuel : ℕ) (role : SocketRole) (t : Table Ssl σ) :
    Option (Option ℕ × Table Ssl σ) :=
  match role with
  | .client => some (t.openStream env .game)
  | .server => t.accept env fuel .game

theorem acquireGame_agrees (fuel : ℕ) (h : Represents st t) (role role' : SocketRole)
    (hrole : role = role') :
    Agrees SameAnswer (acquireGame env fuel role st) (t.acquireGame env fuel role') := by
  rw [hrole]
  cases role' with
  | client =>
    obtain ⟨st', hopen, hrep⟩ := open_spec env h .game
    unfold acquireGame
    rw [hopen]
    exact ⟨rfl, hrep⟩
  | server => exact accept_agrees env fuel h .game

def Table.prepare (fuel : ℕ) (t : Table Ssl σ) : Option (Prepared × Table Ssl σ) :=
  let shaken := handshake env t.connectionIdFinal t.quic
  let t : Table Ssl σ := { t with connectionIdFinal := shaken.2.1, quic := shaken.2.2 }
  if shaken.1 ≠ .ready then some (shaken.1, t)
  else if t.gameStream ≠ none then some (.ready, t)
  else
    let events := if t.role = .server then env.handleEvents t.quic else (true, t.quic)
    let t : Table Ssl σ := { t with quic := events.2 }
    if events.1 = false then some (.fatal, t)
    else
      t.acquireGame env fuel t.role >>= fun answer =>
        some (if answer.1 ≠ none then .ready else .waiting,
          { answer.2 with gameStream := answer.1 })

theorem Represents.withIdFinal (h : Represents st t) (connectionIdFinal : Bool) :
    Represents { st with sc := { st.sc with connectionIdFinal } } { t with connectionIdFinal } := by
  have htable : ({ st with sc := { st.sc with connectionIdFinal } } : State Ssl σ).table t.pending =
      { st.table t.pending with connectionIdFinal } := rfl
  exact ⟨h.listed, h.count, by rw [htable, h.table], h.below, h.connected⟩

theorem Represents.withGame (h : Represents st t) (gameStream : Option ℕ) :
    Represents { st with sc := { st.sc with gameStream } } { t with gameStream } := by
  have htable : ({ st with sc := { st.sc with gameStream } } : State Ssl σ).table t.pending =
      { st.table t.pending with gameStream } := rfl
  exact ⟨h.listed, h.count, by rw [htable, h.table], h.below, h.connected⟩

theorem prepare_agrees (fuel : ℕ) (h : Represents st t) :
    Agrees SameAnswer (socketQuicConnectionPrepare env fuel st) (t.prepare env fuel) := by
  unfold socketQuicConnectionPrepare Table.prepare
  rw [h.connectionIdFinal, h.quic]
  rcases handshake env t.connectionIdFinal t.quic with ⟨result, connectionIdFinal, quic⟩
  have hrep := (h.withIdFinal connectionIdFinal).withQuic quic
  dsimp only
  by_cases hready : result ≠ .ready
  · rw [if_pos hready, if_pos hready]
    exact ⟨rfl, hrep⟩
  rw [if_neg hready, if_neg hready]
  by_cases hgame : st.sc.gameStream ≠ none
  · have hgame' : t.gameStream ≠ none := h.gameStream ▸ hgame
    rw [if_pos hgame, if_pos hgame']
    exact ⟨rfl, hrep⟩
  have hgame' : ¬t.gameStream ≠ none := h.gameStream ▸ hgame
  have hevents : (if st.sc.role = .server then env.handleEvents quic else (true, quic)) =
      if t.role = .server then env.handleEvents quic else (true, quic) := by
    rw [h.role]
  rw [if_neg hgame, if_neg hgame', hevents]
  rcases (if t.role = .server then env.handleEvents quic else (true, quic)) with ⟨handled, quic'⟩
  have hrep' := hrep.withQuic quic'
  dsimp only
  by_cases hfailed : handled = false
  · rw [if_pos hfailed, if_pos hfailed]
    exact ⟨rfl, hrep'⟩
  rw [if_neg hfailed, if_neg hfailed]
  apply agrees_bind (acquireGame_agrees env fuel hrep' _ _ h.role)
  intro answer answer' hanswer
  obtain ⟨stream, st'⟩ := answer
  obtain ⟨stream', t'⟩ := answer'
  obtain ⟨hsame, hrep₁⟩ := hanswer
  have hsame : stream = stream' := hsame
  rw [hsame]
  exact ⟨rfl, hrep₁.withGame stream'⟩

end Prepare

section Transfer

/-- What has been written of the preface of a stream. -/
def Table.prefaced (t : Table Ssl σ) (id : ℕ)
    (written : SocketStreamResult × SocketStream Ssl × σ) : Table Ssl σ :=
  { t.setStream id written.2.1 with quic := written.2.2 }

theorem socketStreamPrefaceWrite_spec (h : Represents st t) (id : ℕ) (stream : SocketStream Ssl)
    (hid : t.streams id = some stream) :
    ∃ st', socketStreamPrefaceWrite env st id = .ok ((prefaceWrite env stream t.quic).1, st') ∧
      Represents st' (t.prefaced id (prefaceWrite env stream t.quic)) := by
  obtain ⟨linked, hlinked, hunlinked⟩ := h.live hid
  have hback : linked = { stream with next := linked.next } := by
    rw [← hunlinked]
    rfl
  have hresult := prefaceWrite_next env linked.next stream t.quic
  rw [← hback] at hresult
  have hframe := (prefaceWrite_spec env stream t.quic).frame
  have hconnection : (prefaceWrite env stream t.quic).2.1.connection = true := by
    rw [hframe]
    exact h.connected id stream hid
  let stream' : SocketStream Ssl := { (prefaceWrite env stream t.quic).2.1 with next := linked.next }
  have hnext : stream'.next = linked.next := rfl
  have hrep := (h.setStream hlinked hnext hconnection).withQuic (prefaceWrite env stream t.quic).2.2
  have hsame : stream'.unlinked = (prefaceWrite env stream t.quic).2.1 := by
    have hnone : (prefaceWrite env stream t.quic).2.1.next = none := by
      rw [hframe, ← hunlinked]
      rfl
    change { (prefaceWrite env stream t.quic).2.1 with next := none } = _
    rw [← hnone]
  rw [hsame] at hrep
  refine ⟨_, ?_, hrep⟩
  unfold socketStreamPrefaceWrite
  rw [load_eq hlinked]
  change (prefaceWriteLoop env 8 linked st.quic >>= fun result => _) = _
  rw [prefaceWriteLoop_eq, h.quic, hresult]
  rfl

def Table.read (t : Table Ssl σ) (id len : ℕ) : SocketStreamResult × List UInt8 × Table Ssl σ :=
  match t.streams id with
  | none => (.error, [], t)
  | some stream =>
    let written := prefaceWrite env stream t.quic
    let t := t.prefaced id written
    if written.1 ≠ .ok then (written.1, [], t)
    else
      let (answer, quic) := env.readEx t.quic stream.ssl len
      let bytes := bytesRead answer
      (socketStreamSslResult answer bytes.length, bytes, { t with quic })

def Table.write (t : Table Ssl σ) (id : ℕ) (buf : List UInt8) :
    SocketStreamResult × ℕ × Table Ssl σ :=
  match t.streams id with
  | none => (.error, 0, t)
  | some stream =>
    let written := prefaceWrite env stream t.quic
    let t := t.prefaced id written
    if written.1 ≠ .ok then (written.1, 0, t)
    else if buf.length = 0 then (.ok, 0, t)
    else
      let (answer, quic) := env.writeEx t.quic stream.ssl buf
      let amount := amountWritten answer
      (socketStreamSslResult answer amount, amount, { t with quic })

theorem read_spec (h : Represents st t) (id len : ℕ) (stream : SocketStream Ssl)
    (hid : t.streams id = some stream) :
    ∃ st', socketStreamRead env st id len =
        .ok ((t.read env id len).1, (t.read env id len).2.1, st') ∧
      Represents st' (t.read env id len).2.2 := by
  obtain ⟨st₁, hwrite, hrep⟩ := socketStreamPrefaceWrite_spec env h id stream hid
  obtain ⟨linked, hlinked, hunlinked⟩ := hrep.live (Function.update_self _ _ _)
  have hssl : linked.ssl = stream.ssl := by
    have hsame : linked.ssl = linked.unlinked.ssl := rfl
    rw [hsame, hunlinked, (prefaceWrite_spec env stream t.quic).frame]
  have hquic : st₁.quic = (prefaceWrite env stream t.quic).2.2 := hrep.quic
  unfold socketStreamRead Table.read
  rw [hid, hwrite]
  dsimp only [bind, Except.bind]
  by_cases hfailed : (prefaceWrite env stream t.quic).1 ≠ .ok
  · rw [if_pos hfailed, if_pos hfailed]
    exact ⟨st₁, rfl, hrep⟩
  · rw [if_neg hfailed, if_neg hfailed, load_eq hlinked]
    dsimp only
    rw [hssl, hquic]
    exact ⟨_, rfl, hrep.withQuic _⟩

theorem write_spec (h : Represents st t) (id : ℕ) (buf : List UInt8) (stream : SocketStream Ssl)
    (hid : t.streams id = some stream) :
    ∃ st', socketStreamWrite env st id buf =
        .ok ((t.write env id buf).1, (t.write env id buf).2.1, st') ∧
      Represents st' (t.write env id buf).2.2 := by
  obtain ⟨st₁, hwrite, hrep⟩ := socketStreamPrefaceWrite_spec env h id stream hid
  obtain ⟨linked, hlinked, hunlinked⟩ := hrep.live (Function.update_self _ _ _)
  have hssl : linked.ssl = stream.ssl := by
    have hsame : linked.ssl = linked.unlinked.ssl := rfl
    rw [hsame, hunlinked, (prefaceWrite_spec env stream t.quic).frame]
  have hquic : st₁.quic = (prefaceWrite env stream t.quic).2.2 := hrep.quic
  unfold socketStreamWrite Table.write
  rw [hid, hwrite]
  dsimp only [bind, Except.bind]
  by_cases hfailed : (prefaceWrite env stream t.quic).1 ≠ .ok
  · rw [if_pos hfailed, if_pos hfailed]
    exact ⟨st₁, rfl, hrep⟩
  rw [if_neg hfailed, if_neg hfailed]
  by_cases hempty : buf.length = 0
  · rw [if_pos hempty, if_pos hempty]
    exact ⟨st₁, rfl, hrep⟩
  · rw [if_neg hempty, if_neg hempty, load_eq hlinked]
    dsimp only
    rw [hssl, hquic]
    exact ⟨_, rfl, hrep.withQuic _⟩

end Transfer

section Perform

/-- A call on the table. -/
def Table.perform (fuel : ℕ) (t : Table Ssl σ) : Call → Option (Answer × Table Ssl σ)
  | .poll => t.poll env fuel >>= fun t => some ({}, t)
  | .accept kind => t.accept env fuel kind >>= fun result => some ({ stream := result.1 }, result.2)
  | .prepare => t.prepare env fuel >>= fun result =>
    some ({ stream := if t.gameStream = none then result.2.gameStream else none }, result.2)
  | .openStream kind =>
    let result := t.openStream env kind
    some ({ stream := result.1 }, result.2)
  | .read id len =>
    let result := t.read env id len
    some ({ result := result.1, bytes := result.2.1 }, result.2.2)
  | .write id buf =>
    let result := t.write env id buf
    some ({ result := result.1, amount := result.2.1 }, result.2.2)
  | .destroy id =>
    match t.streams id with
    | none => some ({}, t)
    | some stream => some ({}, t.destroy env id stream.ssl)

theorem perform_destroy (fuel : ℕ) (id : ℕ) (stream : SocketStream Ssl)
    (hid : t.streams id = some stream) :
    t.perform env fuel (.destroy id) = some ({}, t.destroy env id stream.ssl) := by
  have hmatch : t.perform env fuel (.destroy id) = match t.streams id with
      | none => some ({}, t)
      | some stream => some ({}, t.destroy env id stream.ssl) := rfl
  rw [hmatch, hid]

/-- The stream that a call refers to. -/
def Call.target : Call → Option ℕ
  | .read id _ => some id
  | .write id _ => some id
  | .destroy id => some id
  | _ => none

/-- The calls on the memory and those on the table agree. -/
theorem perform_agrees (fuel : ℕ) (h : Represents st t) (call : Call)
    (hlive : ∀ id, call.target = some id → ∃ stream, t.streams id = some stream) :
    Agrees SameAnswer (perform env fuel st call) (t.perform env fuel call) := by
  cases call with
  | poll =>
    apply agrees_bind (poll_agrees env fuel h)
    intro st' t' hrep
    exact ⟨rfl, hrep⟩
  | accept kind =>
    apply agrees_bind (accept_agrees env fuel h kind)
    intro answer answer' hanswer
    exact ⟨congrArg (fun stream => ({ stream } : Answer)) hanswer.1, hanswer.2⟩
  | prepare =>
    apply agrees_bind (prepare_agrees env fuel h)
    intro answer answer' hanswer
    have hgame : (if st.sc.gameStream = none then answer.2.sc.gameStream else none) =
        if t.gameStream = none then answer'.2.gameStream else none := by
      rw [h.gameStream, hanswer.2.gameStream]
    exact ⟨congrArg (fun stream => ({ stream } : Answer)) hgame, hanswer.2⟩
  | openStream kind =>
    obtain ⟨st', hopen, hrep⟩ := open_spec env h kind
    apply agrees_of_ok
    refine ⟨({ stream := (t.openStream env kind).1 }, st'), ?_, rfl, hrep⟩
    change (socketStreamOpen env st kind >>= fun result => _) = _
    rw [hopen]
    rfl
  | read id len =>
    obtain ⟨stream, hid⟩ := hlive id rfl
    obtain ⟨st', hread, hrep⟩ := read_spec env h id len stream hid
    apply agrees_of_ok
    refine ⟨({ result := (t.read env id len).1, bytes := (t.read env id len).2.1 }, st'), ?_,
      rfl, hrep⟩
    change (socketStreamRead env st id len >>= fun result => _) = _
    rw [hread]
    rfl
  | write id buf =>
    obtain ⟨stream, hid⟩ := hlive id rfl
    obtain ⟨st', hwrite, hrep⟩ := write_spec env h id buf stream hid
    apply agrees_of_ok
    refine ⟨({ result := (t.write env id buf).1, amount := (t.write env id buf).2.1 }, st'), ?_,
      rfl, hrep⟩
    change (socketStreamWrite env st id buf >>= fun result => _) = _
    rw [hwrite]
    rfl
  | destroy id =>
    obtain ⟨stream, hid⟩ := hlive id rfl
    obtain ⟨st', hdestroy, hrep⟩ := destroy_spec env h id stream hid
    rw [perform_destroy env fuel id stream hid]
    apply agrees_of_ok
    refine ⟨({}, st'), ?_, rfl, hrep⟩
    change (socketStreamDestroy env st id >>= fun result => _) = _
    rw [hdestroy]
    rfl

end Perform

end LibAtrinik.Stream

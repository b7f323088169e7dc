import LibAtrinik.FuelLoop
import LibAtrinik.Password
import LibAtrinik.PunchCandidates
import LibAtrinik.SocketRendezvousMessages

namespace LibAtrinik.Punch

open Rendezvous

/-- What `curl_ws_recv` comes to. An error and a missing frame are not told apart. -/
inductive Received where
  | again
  | failed
  | frame (close text : Bool) (data : List Char) (bytesleft : ℕ)
deriving DecidableEq

inductive SocketWebsocketReceiveState where
  | empty | partialMessage | message | closed
deriving DecidableEq

/-- The content of the buffer up to `used`, before and after the call. -/
def socketWebsocketReceive (capacity : ℕ) (used : List Char) (received : Received) :
    SocketWebsocketReceiveState × List Char :=
  if capacity < 2 ∨ used.length ≥ capacity-1 then (.closed, used)
  else
    match received with
    | .again => (.empty, used)
    | .failed => (.closed, used)
    | .frame close text data bytesleft =>
      if close = true ∨ text = false ∨ data.length > capacity-1-used.length then (.closed, used)
      else if bytesleft ≠ 0 then (.partialMessage, used ++ data)
      else (.message, used ++ data)

/-- A buffer as a string. -/
def cString (buffer : List Char) : List Char := buffer.takeWhile (· ≠ '\x00')

/-- The messages that a sequence of calls delivers, and the content of the buffer afterwards unless
the connection is closed. The caller empties the buffer after a message. -/
def deliveries (capacity : ℕ) : List Char → List Received → List (List Char) × Option (List Char)
  | used, [] => ([], some used)
  | used, received :: rest =>
    match socketWebsocketReceive capacity used received with
    | (.empty, used) => deliveries capacity used rest
    | (.partialMessage, used) => deliveries capacity used rest
    | (.message, used) =>
      let later := deliveries capacity [] rest
      (cString used :: later.1, later.2)
    | (.closed, _) => ([], none)

/-- A text frame in pieces: each comes with the number of bytes that are left. -/
def pieces : List (List Char) → List Received
  | [] => []
  | data :: rest => .frame false true data rest.flatten.length :: pieces rest

/-- Only the first piece of a frame can be empty, when the whole frame is. -/
def Pieced (frame : List (List Char)) : Prop :=
  ∃ data rest, frame = data :: rest ∧ ∀ piece ∈ rest, piece ≠ []

/-- Frames that come in pieces, with pauses between any two of them. -/
inductive Paused : List Received → List Received → Prop where
  | nil : Paused [] []
  | pause (given rest : List Received) (h : Paused given rest) : Paused given (.again :: rest)
  | cons (received : Received) (given rest : List Received) (h : Paused given rest) :
      Paused (received :: given) (received :: rest)

/-- What the loop of `socket_rendezvous_client` meets in one round. -/
structure Round where
  nowMs : UInt64
  punch : List Char → UInt16 → Bool
  probes : List Probe
  received : Received
  /-- The clock when nothing has been received. -/
  clockMs : UInt64
  /-- The clock when a job is scheduled. -/
  scheduleMs : UInt64

/-- The probes that are sent and those that are received. -/
def ClientState.exchange (p : Platform) (ticket : List Char) (capacity : ℕ) (s : ClientState)
    (round : Round) : ClientState :=
  (s.step p ticket capacity (.update round.nowMs round.punch)).step p ticket capacity
    (.collect round.probes)

/-- One round of the loop, with the content of `response` and the number of the round. The loop is
left with `complete`. -/
def clientRound (p : Platform) (ticket : List Char) (capacity : ℕ) (deadlineMs : UInt64)
    (rounds : ℕ → Round) :
    ℕ × ClientState × List Char → (ℕ × ClientState × List Char) ⊕ (Bool × ClientState)
  | (k, s, used) =>
    let round := rounds k
    let s := s.exchange p ticket capacity round
    match socketWebsocketReceive 512 used round.received with
    | (.empty, used) =>
      if round.clockMs ≥ deadlineMs then .inr (false, s) else .inl (k+1, s, used)
    | (.partialMessage, used) => .inl (k+1, s, used)
    | (.closed, _) => .inr (false, s)
    | (.message, used) =>
      let response := cString used
      match socketRendezvousServerCandidateParse p (some response) (some ticket) true with
      | some _ => .inl (k+1, s.step p ticket capacity (.message response round.scheduleMs), [])
      | none =>
        if socketRendezvousCompleteParse p (some response) (some ticket) then .inr (true, s)
        else .inl (k+1, s, [])

/-- What `socket_rendezvous_client` gets before it waits for the server. -/
structure Preparation where
  url : Bool
  stun : Option (List Char × UInt16)
  localCandidate : Option (List Char × UInt16)
  randomTicket : Option (List UInt8)
  connected : Bool
  /-- The number of bytes of a message that could be sent. -/
  wsSend : List Char → Option ℕ
  startMs : UInt64

/-- The ticket, in lower case. -/
def Preparation.ticket (prep : Preparation) : Option (List Char) :=
  prep.randomTicket.bind fun bytes =>
    let ticket := Password.stringTohex bytes 65 false
    if ticket.length ≠ 64 then none else some (ticket.map Char.toLower)

/-- The result with the candidates that are stored; `none` while it is still waiting after `fuel`
rounds. -/
def socketRendezvousClient (p : Platform) (prep : Preparation) (capacity : ℕ) (rounds : ℕ → Round)
    (last : Round) (fuel : ℕ) : Option (ℕ × List SocketDirectCandidate) :=
  if prep.url = false then some (0, [])
  else
    match prep.stun.or prep.localCandidate with
    | none => some (0, [])
    | some (host, port) =>
      match prep.ticket with
      | none => some (0, [])
      | some ticket =>
        if prep.connected = false then some (0, [])
        else
          match socketRendezvousMessageRender p true 256 (some "client_candidate".toList)
            (some host) port .num (some ticket) with
          | none => some (0, [])
          | some candidate =>
            if prep.wsSend candidate ≠ some candidate.length then some (0, [])
            else
              (FuelLoop.run (clientRound p ticket capacity (prep.startMs+5000) rounds) fuel
                (0, {}, [])).map fun r =>
                let s := r.2.exchange p ticket capacity last
                (if r.1 then s.candidates.length else 0, s.candidates)

variable {capacity : ℕ}

theorem receive_again (used : List Char) (hcap : 2 ≤ capacity) (h : used.length < capacity-1) :
    socketWebsocketReceive capacity used .again = (.empty, used) := by
  unfold socketWebsocketReceive
  rw [if_neg (by omega)]

theorem receive_piece (used data : List Char) (left : ℕ) (hcap : 2 ≤ capacity)
    (h : used.length < capacity-1) :
    socketWebsocketReceive capacity used (.frame false true data left) =
      if used.length+data.length ≥ capacity then (.closed, used)
      else if left ≠ 0 then (.partialMessage, used ++ data) else (.message, used ++ data) := by
  unfold socketWebsocketReceive
  rw [if_neg (by omega)]
  dsimp only
  by_cases hlong : used.length+data.length ≥ capacity
  · rw [if_pos (by right; right; omega), if_pos hlong]
  · rw [if_neg (by simp; omega), if_neg hlong]

/-- A call with a full buffer closes the connection. -/
theorem deliveries_full (used : List Char) (received : Received) (rest : List Received)
    (h : capacity-1 ≤ used.length) :
    deliveries capacity used (received :: rest) = ([], none) := by
  have hclosed : socketWebsocketReceive capacity used received = (.closed, used) := by
    unfold socketWebsocketReceive
    rw [if_pos (Or.inr h)]
  rw [deliveries, hclosed]

/-- The texts of frames, up to the first one that does not fit into the buffer with a terminator:
it closes the connection. -/
def wholeFrames (capacity : ℕ) : List (List Char) → List (List Char) × Option (List Char)
  | [] => ([], some [])
  | text :: rest =>
    if text.length < capacity then
      let later := wholeFrames capacity rest
      (cString text :: later.1, later.2)
    else ([], none)

theorem flatten_ne_nil {ds : List (List Char)} (hds : ∀ piece ∈ ds, piece ≠ []) (h : ds ≠ []) :
    ds.flatten ≠ [] := by
  cases ds with
  | nil => exact absurd rfl h
  | cons piece ds =>
    intro hno
    exact hds piece List.mem_cons_self (List.append_eq_nil_iff.mp hno).1

/-- One piece of a frame of which `used` has been received. -/
theorem deliveries_piece (hcap : 2 ≤ capacity) (used data : List Char) (ds texts : List (List Char))
    (rest : List Received) (hds : ∀ piece ∈ ds, piece ≠ [])
    (hroom : used.length < capacity-1 ∨ data ++ ds.flatten ≠ [])
    (hlater : ds = [] → deliveries capacity [] rest = wholeFrames capacity texts)
    (hmiddle : ds ≠ [] → ((used ++ data).length < capacity-1 ∨ ds.flatten ≠ []) →
      deliveries capacity (used ++ data) rest =
        wholeFrames capacity ((used ++ data ++ ds.flatten) :: texts)) :
    deliveries capacity used (.frame false true data ds.flatten.length :: rest) =
      wholeFrames capacity ((used ++ (data :: ds).flatten) :: texts) := by
  have hlen : (used ++ (data :: ds).flatten).length =
      used.length+(data.length+ds.flatten.length) := by
    rw [List.length_append, List.flatten_cons, List.length_append]
  by_cases hfull : capacity-1 ≤ used.length
  · -- there is more to come, and no room for it
    have hmore : 0 < (data ++ ds.flatten).length :=
      List.length_pos_iff.mpr (hroom.resolve_left (by omega))
    rw [List.length_append] at hmore
    rw [deliveries_full used _ rest hfull, wholeFrames, if_neg (by omega)]
  rw [deliveries, receive_piece used data _ hcap (by omega)]
  by_cases hlong : used.length+data.length ≥ capacity
  · rw [if_pos hlong, wholeFrames, if_neg (by omega)]
  rw [if_neg hlong]
  by_cases hlast : ds = []
  · subst hlast
    rw [if_neg (by simp)]
    dsimp only
    rw [hlater rfl, wholeFrames, if_pos (by rw [hlen]; simp; omega)]
    simp
  · have hleft : ds.flatten.length ≠ 0 := by
      rw [ne_eq, List.length_eq_zero_iff]
      exact flatten_ne_nil hds hlast
    rw [if_pos hleft]
    dsimp only
    rw [hmiddle hlast (Or.inr (flatten_ne_nil hds hlast)), List.append_assoc]
    rfl

/-- However its frames are cut into pieces, and however long one has to wait for each, a server's
text frames are delivered as they are and in order, up to the first one that does not fit. -/
theorem deliveries_frames (capacity : ℕ) (hcap : 2 ≤ capacity) (frames : List (List (List Char)))
    (hframes : ∀ frame ∈ frames, Pieced frame) (received : List Received)
    (h : Paused (frames.flatMap pieces) received) :
    deliveries capacity [] received = wholeFrames capacity (frames.map List.flatten) := by
  -- in general `used` is there of a frame whose pieces `ds` are still to come
  suffices hmid : ∀ (given rest : List Received), Paused given rest →
      (∀ frames : List (List (List Char)), (∀ frame ∈ frames, Pieced frame) →
        given = frames.flatMap pieces →
        deliveries capacity [] rest = wholeFrames capacity (frames.map List.flatten)) ∧
      ∀ (used : List Char) (ds : List (List Char)) (frames : List (List (List Char))),
        (∀ frame ∈ frames, Pieced frame) → ds ≠ [] → (∀ piece ∈ ds.tail, piece ≠ []) →
        (used.length < capacity-1 ∨ ds.flatten ≠ []) → given = pieces ds ++ frames.flatMap pieces →
        deliveries capacity used rest =
          wholeFrames capacity ((used ++ ds.flatten) :: frames.map List.flatten) from
    (hmid _ _ h).1 frames hframes rfl
  clear h hframes frames received
  intro given rest h
  induction h with
  | nil =>
    constructor
    · intro frames hframes hgiven
      cases frames with
      | nil => rfl
      | cons frame frames =>
        obtain ⟨data, rest, rfl, _⟩ := hframes frame List.mem_cons_self
        cases hgiven
    · intro used ds frames _ hds _ _ hgiven
      cases ds with
      | nil => exact absurd rfl hds
      | cons data ds => cases hgiven
  | pause given rest h ih =>
    constructor
    · intro frames hframes hgiven
      rw [deliveries, receive_again [] hcap (Nat.sub_pos_of_lt hcap)]
      exact ih.1 frames hframes hgiven
    · intro used ds frames hframes hds htail hroom hgiven
      by_cases hfull : capacity-1 ≤ used.length
      · have hmore : 0 < ds.flatten.length :=
          List.length_pos_iff.mpr (hroom.resolve_left (by omega))
        rw [deliveries_full used _ rest hfull, wholeFrames,
          if_neg (by rw [List.length_append]; omega)]
      · rw [deliveries, receive_again used hcap (by omega)]
        exact ih.2 used ds frames hframes hds htail hroom hgiven
  | cons received given rest h ih =>
    have hpiece (used : List Char) (ds : List (List Char)) (frames : List (List (List Char)))
        (hframes : ∀ frame ∈ frames, Pieced frame) (hds : ds ≠ [])
        (htail : ∀ piece ∈ ds.tail, piece ≠ [])
        (hroom : used.length < capacity-1 ∨ ds.flatten ≠ [])
        (hgiven : received :: given = pieces ds ++ frames.flatMap pieces) :
        deliveries capacity used (received :: rest) =
          wholeFrames capacity ((used ++ ds.flatten) :: frames.map List.flatten) := by
      cases ds with
      | nil => exact absurd rfl hds
      | cons data ds =>
        obtain ⟨rfl, rfl⟩ := List.cons.inj hgiven
        apply deliveries_piece hcap used data ds _ rest htail hroom
        · rintro rfl
          exact ih.1 frames hframes rfl
        · exact fun hne hroom' => ih.2 _ ds frames hframes hne
            (fun piece hpiece => htail piece (List.mem_of_mem_tail hpiece)) hroom' rfl
    refine ⟨fun frames hframes hgiven => ?_, hpiece⟩
    cases frames with
    | nil => cases hgiven
    | cons frame frames =>
      -- the first piece of the next frame
      obtain ⟨data, ds, rfl, hds⟩ := hframes _ List.mem_cons_self
      have hnext := hpiece [] (data :: ds) frames
        (fun frame hframe => hframes frame (List.mem_cons_of_mem _ hframe)) nofun hds
        (Or.inl (Nat.sub_pos_of_lt hcap)) hgiven
      rwa [List.nil_append] at hnext

theorem deliveries_frames_two :
    deliveries 4 [] [.frame false true ['a'] 1, .again, .frame false true ['b'] 0,
      .frame false true ['c', 'd', 'e', 'f'] 0] = ([['a', 'b']], none) :=
  deliveries_frames 4 (by decide) [[['a'], ['b']], [['c', 'd', 'e', 'f']]]
    (by
      intro frame hframe
      rcases List.mem_pair.mp hframe with rfl | rfl
      · exact ⟨_, _, rfl, by decide⟩
      · exact ⟨_, _, rfl, by decide⟩) _
    (.cons _ _ _ (.pause _ _ (.cons _ _ _ (.cons _ _ _ .nil))))

variable {p : Platform} {ticket : List Char} {messages messages' : List (List Char)}
  {probes probes' : List Probe} {candidates : List SocketDirectCandidate}

/-- A candidate comes from a message for the ticket, or from a probe of the peer. A probe can also
turn one of the first kind into a peer-reflexive one. -/
def Announced (p : Platform) (ticket : List Char) (messages : List (List Char))
    (probes : List Probe) (c : SocketDirectCandidate) : Prop :=
  (∃ message ∈ messages, ∃ parsed,
    socketRendezvousServerCandidateParse p (some message) (some ticket) true = some parsed ∧
    endpoint c = endpoint parsed ∧ (c.kind = parsed.kind ∨ c.kind = .prflx)) ∨
  c.kind = .prflx ∧ ∃ probe ∈ probes, endpoint c = (probe.port, probe.host)

theorem Announced.mono {c : SocketDirectCandidate} (h : Announced p ticket messages probes c)
    (hm : messages ⊆ messages') (hp : probes ⊆ probes') :
    Announced p ticket messages' probes' c := by
  rcases h with ⟨message, hmem, parsed, hparsed, heq⟩ | ⟨hkind, probe, hmem, heq⟩
  · exact Or.inl ⟨message, hm hmem, parsed, hparsed, heq⟩
  · exact Or.inr ⟨hkind, probe, hp hmem, heq⟩

/-- The scan only turns candidates into peer-reflexive ones. -/
theorem collectScan_mem (host : List Char) (port : UInt16) (has : Bool)
    (c : SocketDirectCandidate) (h : c ∈ (collectScan host port candidates has).2.2) :
    ∃ old ∈ candidates, endpoint c = endpoint old ∧ (c.kind = old.kind ∨ c.kind = .prflx) := by
  induction candidates generalizing has with
  | nil => cases h
  | cons first candidates ih =>
    unfold collectScan at h
    dsimp only at h
    split_ifs at h with hfound hkind
    · rcases List.mem_cons.mp h with rfl | h
      · exact ⟨first, List.mem_cons_self, rfl, Or.inr rfl⟩
      · exact ⟨c, List.mem_cons_of_mem _ h, rfl, Or.inl rfl⟩
    · exact ⟨c, h, rfl, Or.inl rfl⟩
    · rcases List.mem_cons.mp h with rfl | h
      · exact ⟨c, List.mem_cons_self, rfl, Or.inl rfl⟩
      · obtain ⟨old, hold, heq⟩ := ih _ h
        exact ⟨old, List.mem_cons_of_mem _ hold, heq⟩

theorem socketCandidateAdd_mem {host : List Char} {port : UInt16} {kind : SocketCandidateKind}
    (hfits : host.length < 65) {c : SocketDirectCandidate}
    (h : c ∈ (socketCandidateAdd candidates capacity host port kind).2) :
    c ∈ candidates ∨ (endpoint c = (port, host) ∧ c.kind = kind) := by
  unfold socketCandidateAdd at h
  split_ifs at h
  · exact Or.inl h
  · exact Or.inl h
  · rcases List.mem_append.mp h with h | h
    · exact Or.inl h
    · obtain rfl := List.mem_singleton.mp h
      have hhost : snprintf 65 host = host := List.take_of_length_le (by omega)
      exact Or.inr ⟨by rw [endpoint, hhost], rfl⟩

/-- All candidates have been announced. -/
def AllAnnounced (p : Platform) (ticket : List Char) (messages : List (List Char))
    (probes : List Probe) (candidates : List SocketDirectCandidate) : Prop :=
  ∀ c ∈ candidates, Announced p ticket messages probes c

theorem AllAnnounced.collectProbe (h : AllAnnounced p ticket messages probes candidates)
    (probe : Probe) (hprobe : probe ∈ probes) :
    AllAnnounced p ticket messages probes (collectProbe capacity candidates probe) := by
  have hscanned : AllAnnounced p ticket messages probes
      (collectScan probe.host probe.port candidates false).2.2 := by
    intro c hc
    obtain ⟨old, hold, hend, hkind⟩ := collectScan_mem _ _ _ _ hc
    rcases h old hold with ⟨message, hmem, parsed, hparsed, heq, hk⟩ | ⟨hk, sender, hmem, heq⟩
    · refine Or.inl ⟨message, hmem, parsed, hparsed, hend.trans heq, ?_⟩
      rcases hkind with hkind | hkind
      · rw [hkind]
        exact hk
      · exact Or.inr hkind
    · exact Or.inr ⟨hkind.elim (·.trans hk) id, sender, hmem, hend.trans heq⟩
  unfold Punch.collectProbe
  dsimp only
  split_ifs
  · exact hscanned
  · intro c hc
    rcases socketCandidateAdd_mem probe.fits hc with hc | ⟨hend, hkind⟩
    · exact hscanned c hc
    · exact Or.inr ⟨hkind, probe, hprobe, hend⟩

theorem AllAnnounced.exchange {s : ClientState}
    (h : AllAnnounced p ticket messages probes s.candidates) (round : Round) :
    AllAnnounced p ticket messages (probes ++ round.probes)
      (s.exchange p ticket capacity round).candidates := by
  have hmore : AllAnnounced p ticket messages (probes ++ round.probes) s.candidates :=
    fun c hc => (h c hc).mono (List.Subset.refl _) (List.subset_append_left _ _)
  have hmem : round.probes.take socketPunchDrainMax ⊆ probes ++ round.probes :=
    fun probe hprobe => List.mem_append_right _ (List.mem_of_mem_take hprobe)
  show AllAnnounced _ _ _ _ ((round.probes.take socketPunchDrainMax).foldl _ s.candidates)
  generalize round.probes.take socketPunchDrainMax = drained at hmem ⊢
  generalize s.candidates = candidates at hmore ⊢
  induction drained generalizing candidates with
  | nil => exact hmore
  | cons probe drained ih =>
    exact ih (fun other hother => hmem (List.mem_cons_of_mem _ hother)) _
      (hmore.collectProbe probe (hmem List.mem_cons_self))

/-- What was received in the first rounds. -/
def receivedUpTo (rounds : ℕ → Round) (n : ℕ) : List Received :=
  (List.range n).map fun k => (rounds k).received

def probesUpTo (rounds : ℕ → Round) (n : ℕ) : List Probe :=
  (List.range n).flatMap fun k => (rounds k).probes

variable {rounds : ℕ → Round} {deadlineMs : UInt64}

/-- Between two rounds: the messages that were delivered, and their candidates. -/
structure Waiting (p : Platform) (ticket : List Char) (capacity : ℕ) (rounds : ℕ → Round)
    (messages : List (List Char)) (a : ℕ × ClientState × List Char) : Prop where
  delivered : ∀ rest, deliveries 512 [] (receivedUpTo rounds a.1 ++ rest) =
    (messages ++ (deliveries 512 a.2.2 rest).1, (deliveries 512 a.2.2 rest).2)
  announced : AllAnnounced p ticket messages (probesUpTo rounds a.1) a.2.1.candidates
  collected : Collected capacity a.2.1.candidates
  oneActive : OneActive a.2.1.punchJobs

theorem receivedUpTo_succ (rounds : ℕ → Round) (n : ℕ) (rest : List Received) :
    receivedUpTo rounds (n+1) ++ rest =
      receivedUpTo rounds n ++ ((rounds n).received :: rest) := by
  unfold receivedUpTo
  rw [List.range_succ, List.map_append, List.append_assoc]
  rfl

theorem probesUpTo_succ (rounds : ℕ → Round) (n : ℕ) :
    probesUpTo rounds (n+1) = probesUpTo rounds n ++ (rounds n).probes := by
  unfold probesUpTo
  rw [List.range_succ, List.flatMap_append, List.flatMap_singleton]

theorem Collected.exchange (p : Platform) (ticket : List Char) {s : ClientState}
    (hc : Collected capacity s.candidates) (hjobs : OneActive s.punchJobs) (round : Round) :
    Collected capacity (s.exchange p ticket capacity round).candidates ∧
      OneActive (s.exchange p ticket capacity round).punchJobs := by
  obtain ⟨hc', _, hjobs'⟩ := s.step_spec p ticket capacity hc hjobs (.update round.nowMs round.punch)
  obtain ⟨hc'', _, hjobs''⟩ := ClientState.step_spec p ticket capacity _ hc' hjobs'
    (.collect round.probes)
  exact ⟨hc'', hjobs''⟩

/-- The round of a message that is taken, with a candidate or without. -/
theorem Waiting.taken {k : ℕ} {s s' : ClientState} {used buffer : List Char}
    (h : Waiting p ticket capacity rounds messages (k, s, used))
    (hreceive : socketWebsocketReceive 512 used (rounds k).received = (.message, buffer))
    (hs : AllAnnounced p ticket (messages ++ [cString buffer]) (probesUpTo rounds (k+1))
      s'.candidates)
    (hc : Collected capacity s'.candidates) (hjobs : OneActive s'.punchJobs) :
    Waiting p ticket capacity rounds (messages ++ [cString buffer]) (k+1, s', []) := by
  refine ⟨fun rest => ?_, hs, hc, hjobs⟩
  rw [receivedUpTo_succ, h.delivered]
  show (messages ++ (deliveries 512 used ((rounds k).received :: rest)).1, _) = _
  rw [deliveries, hreceive]
  simp

/-- A round in which no message is complete. -/
theorem Waiting.quiet {k : ℕ} {s : ClientState} {used used' : List Char}
    (h : Waiting p ticket capacity rounds messages (k, s, used))
    (hreceive : ∀ rest, deliveries 512 used ((rounds k).received :: rest) =
      deliveries 512 used' rest) :
    Waiting p ticket capacity rounds messages
      (k+1, s.exchange p ticket capacity (rounds k), used') := by
  obtain ⟨hc, hjobs⟩ := h.collected.exchange p ticket h.oneActive (rounds k)
  refine ⟨fun rest => ?_, ?_, hc, hjobs⟩
  · rw [receivedUpTo_succ, h.delivered, hreceive]
  · rw [probesUpTo_succ]
    exact h.announced.exchange (rounds k)

/-- A round that is not the last one. -/
theorem Waiting.round {a next : ℕ × ClientState × List Char}
    (h : Waiting p ticket capacity rounds messages a)
    (hnext : clientRound p ticket capacity deadlineMs rounds a = .inl next) :
    ∃ messages', Waiting p ticket capacity rounds messages' next := by
  obtain ⟨k, s, used⟩ := a
  unfold clientRound at hnext
  dsimp only at hnext
  cases hreceive : socketWebsocketReceive 512 used (rounds k).received with
  | mk state buffer =>
    rw [hreceive] at hnext
    cases state with
    | empty =>
      dsimp only at hnext
      split_ifs at hnext
      rw [← Sum.inl.inj hnext]
      exact ⟨messages, h.quiet fun rest => by rw [deliveries, hreceive]⟩
    | partialMessage =>
      rw [← Sum.inl.inj hnext]
      exact ⟨messages, h.quiet fun rest => by rw [deliveries, hreceive]⟩
    | closed => cases hnext
    | message =>
      dsimp only at hnext
      obtain ⟨hc, hjobs⟩ := h.collected.exchange p ticket h.oneActive (rounds k)
      have hall : AllAnnounced p ticket (messages ++ [cString buffer]) (probesUpTo rounds (k+1))
          (s.exchange p ticket capacity (rounds k)).candidates := by
        rw [probesUpTo_succ]
        exact fun c hmem => (h.announced.exchange (rounds k) c hmem).mono
          (List.subset_append_left _ _) (List.Subset.refl _)
      cases hparse : socketRendezvousServerCandidateParse p (some (cString buffer)) (some ticket)
        true with
      | none =>
        rw [hparse] at hnext
        dsimp only at hnext
        split_ifs at hnext
        rw [← Sum.inl.inj hnext]
        exact ⟨_, h.taken hreceive hall hc hjobs⟩
      | some parsed =>
        rw [hparse] at hnext
        rw [← Sum.inl.inj hnext]
        obtain ⟨hc', _, hjobs'⟩ := ClientState.step_spec p ticket capacity _ hc hjobs
          (.message (cString buffer) (rounds k).scheduleMs)
        refine ⟨_, h.taken hreceive ?_ hc' hjobs'⟩
        intro c hmem
        unfold ClientState.step at hmem
        simp only [hparse] at hmem
        rcases socketCandidateAdd_mem (parsed_host_fits p ticket _ parsed hparse) hmem with
          hmem | ⟨hend, hkind⟩
        · exact hall c hmem
        · exact Or.inl ⟨_, List.mem_append_right _ (List.mem_singleton_self _), parsed, hparse, hend,
            Or.inl hkind⟩

/-- The loop is left with success by the message that says so. -/
theorem Waiting.complete {k : ℕ} {s s' : ClientState} {used : List Char}
    (h : Waiting p ticket capacity rounds messages (k, s, used))
    (hlast : clientRound p ticket capacity deadlineMs rounds (k, s, used) = .inr (true, s')) :
    s' = s.exchange p ticket capacity (rounds k) ∧ ∃ message,
      (deliveries 512 [] (receivedUpTo rounds (k+1))).1 = messages ++ [message] ∧
      socketRendezvousCompleteParse p (some message) (some ticket) = true := by
  unfold clientRound at hlast
  dsimp only at hlast
  cases hreceive : socketWebsocketReceive 512 used (rounds k).received with
  | mk state buffer =>
    rw [hreceive] at hlast
    cases state with
    | empty =>
      dsimp only at hlast
      split_ifs at hlast
      cases (Prod.mk.inj (Sum.inr.inj hlast)).1
    | partialMessage => cases hlast
    | closed => cases (Prod.mk.inj (Sum.inr.inj hlast)).1
    | message =>
      dsimp only at hlast
      cases hparse : socketRendezvousServerCandidateParse p (some (cString buffer)) (some ticket)
        true with
      | some parsed =>
        rw [hparse] at hlast
        cases hlast
      | none =>
        rw [hparse] at hlast
        dsimp only at hlast
        split_ifs at hlast with hcomplete
        refine ⟨(Prod.mk.inj (Sum.inr.inj hlast)).2.symm, cString buffer, ?_, hcomplete⟩
        have hdelivered := h.delivered [(rounds k).received]
        rw [← receivedUpTo_succ, List.append_nil] at hdelivered
        rw [hdelivered]
        show messages ++ (deliveries 512 used [(rounds k).received]).1 = _
        rw [deliveries, hreceive]
        rfl

theorem waiting_start (p : Platform) (ticket : List Char) (capacity : ℕ) (rounds : ℕ → Round) :
    Waiting p ticket capacity rounds [] (0, {}, []) where
  delivered _ := rfl
  announced _ hno := by cases hno
  collected := ⟨List.nodup_nil, Nat.zero_le _⟩
  oneActive := oneActive_start

/-- If the client returns candidates, the server has confirmed the exchange with the client's
ticket, and each candidate was announced for that ticket before, or comes from a peer's probe. No
endpoint occurs twice. -/
theorem client_candidates_announced (p : Platform) (prep : Preparation) (capacity : ℕ)
    (rounds : ℕ → Round) (last : Round) (fuel n : ℕ) (candidates : List SocketDirectCandidate)
    (h : socketRendezvousClient p prep capacity rounds last fuel = some (n, candidates))
    (hn : n ≠ 0) :
    n = candidates.length ∧ n ≤ capacity ∧ (candidates.map endpoint).Nodup ∧
    ∃ ticket k messages complete, prep.ticket = some ticket ∧
      (deliveries 512 [] (receivedUpTo rounds (k+1))).1 = messages ++ [complete] ∧
      socketRendezvousCompleteParse p (some complete) (some ticket) = true ∧
      ∀ c ∈ candidates,
        Announced p ticket messages (probesUpTo rounds (k+1) ++ last.probes) c := by
  have hzero (hno : some (0, []) = some (n, candidates)) : False :=
    hn (Prod.mk.inj (Option.some.inj hno)).1.symm
  unfold socketRendezvousClient at h
  by_cases hurl : prep.url = false
  · rw [if_pos hurl] at h
    exact (hzero h).elim
  rw [if_neg hurl] at h
  cases hcandidate : prep.stun.or prep.localCandidate with
  | none =>
    rw [hcandidate] at h
    exact (hzero h).elim
  | some own =>
    obtain ⟨host, port⟩ := own
    rw [hcandidate] at h
    dsimp only at h
    cases hticket : prep.ticket with
    | none =>
      rw [hticket] at h
      exact (hzero h).elim
    | some ticket =>
      rw [hticket] at h
      dsimp only at h
      by_cases hconnected : prep.connected = false
      · rw [if_pos hconnected] at h
        exact (hzero h).elim
      rw [if_neg hconnected] at h
      generalize socketRendezvousMessageRender p true 256 _ _ port .num _ = rendered at h
      cases rendered with
      | none => exact (hzero h).elim
      | some text =>
        dsimp only at h
        by_cases hsent : prep.wsSend text ≠ some text.length
        · rw [if_pos hsent] at h
          exact (hzero h).elim
        rw [if_neg hsent] at h
        obtain ⟨⟨complete, s⟩, hrun, heq⟩ := Option.map_eq_some_iff.mp h
        obtain ⟨hcount, hcandidates⟩ := Prod.mk.inj heq
        cases complete with
        | false => exact absurd hcount.symm hn
        | true =>
          obtain ⟨⟨k, s', used⟩, ⟨messages, hwaiting⟩, hlast⟩ := FuelLoop.run_invariant _
            (fun a => ∃ messages, Waiting p ticket capacity rounds messages a)
            (fun a next ha hnext => ha.elim fun _ hw => hw.round hnext) fuel _ _
            ⟨[], waiting_start p ticket capacity rounds⟩ hrun
          obtain ⟨rfl, message, hdelivered, hcomplete⟩ := hwaiting.complete hlast
          obtain ⟨hc, hjobs⟩ := hwaiting.collected.exchange p ticket hwaiting.oneActive (rounds k)
          obtain ⟨hc', _⟩ := hc.exchange p ticket hjobs last
          have hround := @AllAnnounced.exchange capacity _ _ _ _ _ hwaiting.announced (rounds k)
          have hall := @AllAnnounced.exchange capacity _ _ _ _ _ hround last
          rw [← probesUpTo_succ] at hall
          dsimp only at hcount hcandidates
          rw [hcandidates] at hc' hall
          rw [if_pos rfl, hcandidates] at hcount
          exact ⟨hcount.symm, hcount ▸ hc'.count, hc'.nodup, ticket, k, messages, message, rfl,
            hdelivered, hcomplete, hall⟩

def sampleTicket : List Char := List.replicate 64 'a'

/-- A server that announces one candidate, in two pieces, and then confirms. -/
def sampleRounds (k : ℕ) : Round where
  nowMs := 0
  punch := fun _ _ => true
  probes := []
  received :=
    let message := serverMessage "192.0.2.1".toList (portDigits 443) "lan".toList sampleTicket
    if k = 0 then .frame false true (message.take 9) (message.length-9)
    else if k = 1 then .frame false true (message.drop 9) 0
    else .frame false true (completeMessage sampleTicket) 0
  clockMs := 0
  scheduleMs := 0

def samplePreparation : Preparation where
  url := true
  stun := none
  localCandidate := some ("192.0.2.1".toList, 9)
  randomTicket := some (List.replicate 32 170)
  connected := true
  wsSend := fun message => some message.length
  startMs := 0

theorem client_candidates_announced_sample :
    ∃ ticket k messages complete, samplePreparation.ticket = some ticket ∧
      (deliveries 512 [] (receivedUpTo sampleRounds (k+1))).1 = messages ++ [complete] ∧
      socketRendezvousCompleteParse documentation (some complete) (some ticket) = true ∧
      ∀ c ∈ [(⟨"192.0.2.1".toList, 443, .lan⟩ : SocketDirectCandidate)],
        Announced documentation ticket messages
          (probesUpTo sampleRounds (k+1) ++ (sampleRounds 0).probes) c :=
  (client_candidates_announced documentation samplePreparation 12 sampleRounds (sampleRounds 0) 5 1
    [⟨"192.0.2.1".toList, 443, .lan⟩] (by decide +kernel) (by decide)).2.2.2

end LibAtrinik.Punch

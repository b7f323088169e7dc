import LibAtrinik.SocketRendezvousParse

namespace LibAtrinik.Rendezvous

open ScanFormat

variable {p : Platform} {message host spelling ticket text : List Char}
  {n size : ℕ} {port : UInt16} {kind : SocketCandidateKind}

def completeMessage (ticket : List Char) : List Char := completeHead ++ ticket ++ tailText

def portDigits (port : UInt16) : List Char := Nat.toDigits 10 port.toNat

/-- Rendering prints the text when it fits. -/
theorem messageRender_eq {type : List Char} {host : Option (List Char)}
    (hticket : socketRendezvousTicketValid (some ticket) = true)
    (htext : messageText p type host port kind ticket = some text) (size : ℕ) :
    socketRendezvousMessageRender p true size (some type) host port kind (some ticket) =
      if text.length < size then some text else none := by
  unfold socketRendezvousMessageRender
  by_cases hsize : size = 0
  · subst hsize
    rw [if_pos (Or.inr rfl), if_neg (Nat.not_lt_zero _)]
  · rw [if_neg (by simp [hsize])]
    dsimp only
    rw [if_neg (by simp [hticket]), htext]
    dsimp only
    split_ifs with hfits
    · rw [snprintf_of_lt hfits]
    · rfl

theorem messageText_complete (host : Option (List Char)) :
    messageText p "complete".toList host port kind ticket = some (completeMessage ticket) :=
  if_pos rfl

theorem messageText_client (hhost : socketRendezvousHostValid p (some host) = true) :
    messageText p "client_candidate".toList (some host) port kind ticket =
      some (clientMessage host (portDigits port) ticket) := by
  unfold messageText
  rw [if_neg (by decide), if_pos ⟨rfl, hhost⟩]
  rfl

theorem messageText_server (hhost : socketRendezvousHostValid p (some host) = true)
    (hkind : kind ≠ .num) :
    messageText p "server_candidate".toList (some host) port kind ticket =
      some (serverMessage host (portDigits port) (socketCandidateKindName kind) ticket) := by
  unfold messageText
  rw [if_neg (by decide), if_neg (by rintro ⟨h, _⟩; revert h; decide),
    if_pos ⟨rfl, hhost, hkind⟩]
  rfl

theorem completeParse_iff : socketRendezvousCompleteParse p (some message) (some ticket) = true ↔
    socketRendezvousTicketValid (some ticket) = true ∧ message = completeMessage ticket := by
  unfold socketRendezvousCompleteParse
  constructor
  · intro h
    have hticket : socketRendezvousTicketValid (some ticket) = true := by
      by_contra hno
      have hnone : socketRendezvousMessageRender p true 128 (some "complete".toList) none 0 .num
          (some ticket) = none := by
        unfold socketRendezvousMessageRender
        rw [if_neg (by simp)]
        exact if_pos (by simpa using hno)
      rw [hnone] at h
      cases h
    rw [messageRender_eq hticket (messageText_complete none)] at h
    split_ifs at h
    exact ⟨hticket, by simpa using h⟩
  · rintro ⟨hticket, rfl⟩
    have hlen := (ticketValid_iff.mp hticket).1
    have hfits : (completeMessage ticket).length < 128 := by
      have hhead : completeHead.length = 29 := by decide
      have htail : tailText.length = 2 := by decide
      simp only [completeMessage, List.length_append]
      omega
    rw [messageRender_eq hticket (messageText_complete none), if_pos hfits]
    simp

def typeTag (message : List Char) : List Char := message.take 11

theorem typeTag_append {head rest : List Char} (h : 11 ≤ head.length) :
    typeTag (head ++ rest) = typeTag head :=
  List.take_append_of_le_length h

theorem typeTag_client (host spelling ticket : List Char) :
    typeTag (clientMessage host spelling ticket) = typeTag clientHead := by
  simp only [clientMessage, List.append_assoc]
  exact typeTag_append (by decide)

theorem typeTag_server (host spelling kind ticket : List Char) :
    typeTag (serverMessage host spelling kind ticket) = typeTag serverHead := by
  simp only [serverMessage, List.append_assoc]
  exact typeTag_append (by decide)

theorem typeTag_complete (ticket : List Char) :
    typeTag (completeMessage ticket) = typeTag completeHead := by
  simp only [completeMessage, List.append_assoc]
  exact typeTag_append (by decide)

theorem clientParse_eq_none (h : typeTag message ≠ typeTag clientHead) (out : ClientOutput) :
    socketRendezvousClientCandidateParse p (some message) out = none := by
  rw [Option.eq_none_iff_forall_ne_some]
  intro c hc
  obtain ⟨spelling, n, rfl, _⟩ := (clientCandidateParse_iff out c).mp hc
  exact h (typeTag_client _ _ _)

theorem serverParse_eq_none (h : typeTag message ≠ typeTag serverHead)
    (expected : Option (List Char)) :
    socketRendezvousServerCandidateParse p (some message) expected true = none := by
  cases expected with
  | none => rfl
  | some ticket =>
    rw [Option.eq_none_iff_forall_ne_some]
    intro c hc
    obtain ⟨spelling, n, rfl, _⟩ := (serverCandidateParse_iff c).mp hc
    exact h (typeTag_server _ _ _ _)

theorem completeParse_eq_false (h : typeTag message ≠ typeTag completeHead)
    (expected : Option (List Char)) :
    socketRendezvousCompleteParse p (some message) expected = false := by
  cases expected with
  | none => rfl
  | some ticket =>
    rw [Bool.eq_false_iff]
    intro hc
    obtain ⟨_, rfl⟩ := completeParse_iff.mp hc
    exact h (typeTag_complete _)

/-- Texts that end alike after words of one length have the same word there. -/
theorem ticket_of_append {front front' : List Char} {t t' : List Char}
    (h : front ++ t ++ tailText = front' ++ t' ++ tailText) (hlen : t.length = t'.length) :
    t = t' :=
  (List.append_inj' (List.append_cancel_right h) hlen).2

theorem Word.of_host (hp : p.Presents) (hhost : socketRendezvousHostValid p (some host) = true) :
    Word 64 isHostChar host := by
  have haccepted : p.inetPton4 host = true ∨ p.inetPton6 host = true := by
    simp only [socketRendezvousHostValid, Bool.or_eq_true, Bool.and_eq_true] at hhost
    exact hhost.imp_right And.right
  obtain ⟨hne, hlen, hall⟩ := hp host haccepted
  exact ⟨hne, hlen.le, hall⟩

/-- Messages that are rendered for fields are read back by the parser of their type with the
expected ticket, and by no other. -/
theorem rendezvous_round_trip (p : Platform) (hp : p.Presents) (host : List Char)
    (hhost : socketRendezvousHostValid p (some host) = true) (port : UInt16) (hport : 0 < port.toNat)
    (kind : SocketCandidateKind) (hkind : kind ≠ .num) (ticket : List Char)
    (hticket : socketRendezvousTicketValid (some ticket) = true) :
    ∃ client server complete : List Char,
      (∀ size, socketRendezvousMessageRender p true size (some "client_candidate".toList)
        (some host) port kind (some ticket) = if client.length < size then some client else none) ∧
      (∀ size, socketRendezvousMessageRender p true size (some "server_candidate".toList)
        (some host) port kind (some ticket) = if server.length < size then some server else none) ∧
      (∀ size, socketRendezvousMessageRender p true size (some "complete".toList)
        (some host) port kind (some ticket) =
          if complete.length < size then some complete else none) ∧
      (∀ out : ClientOutput, out.Given → host.length < out.hostSize →
        socketRendezvousClientCandidateParse p (some client) out = some ⟨host, port, ticket⟩) ∧
      socketRendezvousServerCandidateParse p (some server) (some ticket) true =
        some ⟨host, port, kind⟩ ∧
      socketRendezvousCompleteParse p (some complete) (some ticket) = true ∧
      (∀ out, socketRendezvousClientCandidateParse p (some server) out = none ∧
        socketRendezvousClientCandidateParse p (some complete) out = none) ∧
      (∀ expected, socketRendezvousServerCandidateParse p (some client) expected true = none ∧
        socketRendezvousServerCandidateParse p (some complete) expected true = none ∧
        socketRendezvousCompleteParse p (some client) expected = false ∧
        socketRendezvousCompleteParse p (some server) expected = false) ∧
      (∀ other, other ≠ some ticket →
        socketRendezvousServerCandidateParse p (some server) other true = none ∧
        socketRendezvousCompleteParse p (some complete) other = false) := by
  have hword := Word.of_host hp hhost
  have hmax : port.toNat < 65536 := port.toNat_lt
  have hnumeral : Numeral p.wide (portDigits port) port.toNat := numeral_toDigits _ (by omega)
  have hcast : port = port.toNat.toUInt16 := UInt16.toNat_inj.mp (by simp)
  refine ⟨clientMessage host (portDigits port) ticket,
    serverMessage host (portDigits port) (socketCandidateKindName kind) ticket,
    completeMessage ticket, messageRender_eq hticket (messageText_client hhost),
    messageRender_eq hticket (messageText_server hhost hkind),
    messageRender_eq hticket (messageText_complete _), ?_, ?_, ?_, ?_, ?_, ?_⟩
  · intro out hout hlen
    exact (clientCandidateParse_iff out _).mpr ⟨portDigits port, port.toNat, rfl, hout, hword,
      hnumeral, hport, by omega, hhost, hticket, hlen, hcast⟩
  · exact (serverCandidateParse_iff _).mpr ⟨portDigits port, port.toNat, rfl, hword, hnumeral,
      hport, by omega, hhost, hticket, hkind, hcast⟩
  · exact completeParse_iff.mpr ⟨hticket, rfl⟩
  · intro out
    exact ⟨clientParse_eq_none (by rw [typeTag_server]; decide) out,
      clientParse_eq_none (by rw [typeTag_complete]; decide) out⟩
  · intro expected
    exact ⟨serverParse_eq_none (by rw [typeTag_client]; decide) expected,
      serverParse_eq_none (by rw [typeTag_complete]; decide) expected,
      completeParse_eq_false (by rw [typeTag_client]; decide) expected,
      completeParse_eq_false (by rw [typeTag_server]; decide) expected⟩
  · intro other hother
    cases other with
    | none => exact ⟨rfl, rfl⟩
    | some other =>
      have hne : ticket ≠ other := fun h => hother (congrArg some h.symm)
      have hlen := (ticketValid_iff.mp hticket).1
      constructor
      · rw [Option.eq_none_iff_forall_ne_some]
        intro c hc
        obtain ⟨spelling, n, hmessage, _, _, _, _, _, hvalid, _⟩ :=
          (serverCandidateParse_iff c).mp hc
        exact hne (ticket_of_append hmessage (hlen.trans (ticketValid_iff.mp hvalid).1.symm))
      · rw [Bool.eq_false_iff]
        intro hc
        obtain ⟨hvalid, hmessage⟩ := completeParse_iff.mp hc
        exact hne (ticket_of_append hmessage (hlen.trans (ticketValid_iff.mp hvalid).1.symm))

/-- A platform without IPv6 on which one address is known, and where `%u` goes through
`unsigned long` of 64 bits. -/
def documentation : Platform where
  inetPton4 := fun host => host == "192.0.2.1".toList
  inetPton6 := fun _ => false
  haveIpv6 := false
  wide := fun negative n => if n ≥ 2^64 then 2^64-1 else if negative then 2^64-n else n

theorem documentation_presents : documentation.Presents := by
  rintro host (h | h)
  · obtain rfl : host = "192.0.2.1".toList := by simpa [documentation] using h
    exact ⟨by decide, by decide, List.all_eq_true.mp (by decide)⟩
  · cases h

theorem rendezvous_round_trip_documentation : ∃ server,
    socketRendezvousMessageRender documentation true 256 (some "server_candidate".toList)
      (some "192.0.2.1".toList) 443 .lan (some (List.replicate 64 'a')) = some server ∧
    socketRendezvousServerCandidateParse documentation (some server)
      (some (List.replicate 64 'a')) true = some ⟨"192.0.2.1".toList, 443, .lan⟩ ∧
    socketRendezvousServerCandidateParse documentation (some server)
      (some (List.replicate 64 'b')) true = none := by
  obtain ⟨_, server, _, _, hserver, _, _, hparse, _, _, _, hother⟩ :=
    rendezvous_round_trip documentation documentation_presents "192.0.2.1".toList (by decide) 443
      (by decide) .lan (by decide) (List.replicate 64 'a') (by decide +kernel)
  have hrender : socketRendezvousMessageRender documentation true 256
      (some "server_candidate".toList) (some "192.0.2.1".toList) 443 .lan
      (some (List.replicate 64 'a')) = some (serverMessage "192.0.2.1".toList (portDigits 443)
        "lan".toList (List.replicate 64 'a')) := by decide +kernel
  have h256 := hserver 256
  rw [hrender] at h256
  split_ifs at h256
  refine ⟨server, hrender.trans h256, hparse, (hother (some (List.replicate 64 'b')) ?_).1⟩
  decide +kernel

end LibAtrinik.Rendezvous

import LibAtrinik.SocketRendezvous

namespace LibAtrinik.Rendezvous

open ScanFormat

variable {p : Platform} {wide : Bool → ℕ → ℕ} {message host spelling ticket : List Char}
  {values : List Value} {n : ℕ} {port : UInt16} {kind : SocketCandidateKind}

def clientMessage (host spelling ticket : List Char) : List Char :=
  clientHead ++ host ++ portText ++ spelling ++ clientTicketText ++ ticket ++ tailText

def serverMessage (host spelling kind ticket : List Char) : List Char :=
  serverHead ++ host ++ portText ++ spelling ++ kindText ++ kind ++ serverTicketText ++ ticket ++
    tailText

/-- The words that a scanset with a width reads when a quotation mark comes next. -/
def Word (width : ℕ) (accepts : Char → Bool) (word : List Char) : Prop :=
  word ≠ [] ∧ word.length ≤ width ∧ ∀ c ∈ word, accepts c = true

theorem client_scans : Scans wide clientFormat message values ↔
    ∃ host spelling n ticket, message = clientMessage host spelling ticket ∧
      values = [.word host, .number n, .word ticket] ∧ Word 64 isHostChar host ∧
      Numeral wide spelling n ∧ Word 64 isLowerHex ticket := by
  have hhost : Stops isHostChar portText := ⟨'"', _, rfl, by decide⟩
  have hport : Stops Char.isDigit clientTicketText := ⟨',', _, rfl, by decide⟩
  have hticket : Stops isLowerHex tailText := ⟨'"', _, rfl, by decide⟩
  unfold clientFormat
  simp only [scans_text, scans_word hhost, scans_number hport, scans_word hticket, scans_nil]
  constructor
  · rintro ⟨_, rfl, host, _, _, rfl, rfl, hh, hhl, hhc, spelling, n, _, _, rfl, rfl, hn, ticket, _,
      _, rfl, rfl, ht, htl, htc, rfl, rfl⟩
    refine ⟨host, spelling, n, ticket, ?_, rfl, ⟨hh, hhl, hhc⟩, hn, ht, htl, htc⟩
    simp only [clientMessage, List.append_assoc, List.append_nil]
  · rintro ⟨host, spelling, n, ticket, rfl, rfl, ⟨hh, hhl, hhc⟩, hn, ht, htl, htc⟩
    refine ⟨_, ?_, host, _, _, rfl, rfl, hh, hhl, hhc, spelling, n, _, _, rfl, rfl, hn, ticket, _,
      _, rfl, rfl, ht, htl, htc, rfl, rfl⟩
    simp only [clientMessage, List.append_assoc, List.append_nil]

theorem server_scans : Scans wide serverFormat message values ↔
    ∃ host spelling n kind ticket, message = serverMessage host spelling kind ticket ∧
      values = [.word host, .number n, .word kind, .word ticket] ∧ Word 64 isHostChar host ∧
      Numeral wide spelling n ∧ Word 15 isKindChar kind ∧ Word 64 isLowerHex ticket := by
  have hhost : Stops isHostChar portText := ⟨'"', _, rfl, by decide⟩
  have hport : Stops Char.isDigit kindText := ⟨',', _, rfl, by decide⟩
  have hkind : Stops isKindChar serverTicketText := ⟨'"', _, rfl, by decide⟩
  have hticket : Stops isLowerHex tailText := ⟨'"', _, rfl, by decide⟩
  unfold serverFormat
  simp only [scans_text, scans_word hhost, scans_number hport, scans_word hkind,
    scans_word hticket, scans_nil]
  constructor
  · rintro ⟨_, rfl, host, _, _, rfl, rfl, hh, hhl, hhc, spelling, n, _, _, rfl, rfl, hn, kind, _,
      _, rfl, rfl, hk, hkl, hkc, ticket, _, _, rfl, rfl, ht, htl, htc, rfl, rfl⟩
    refine ⟨host, spelling, n, kind, ticket, ?_, rfl, ⟨hh, hhl, hhc⟩, hn, ⟨hk, hkl, hkc⟩, ht, htl,
      htc⟩
    simp only [serverMessage, List.append_assoc, List.append_nil]
  · rintro ⟨host, spelling, n, kind, ticket, rfl, rfl, ⟨hh, hhl, hhc⟩, hn, ⟨hk, hkl, hkc⟩, ht, htl,
      htc⟩
    refine ⟨_, ?_, host, _, _, rfl, rfl, hh, hhl, hhc, spelling, n, _, _, rfl, rfl, hn, kind, _,
      _, rfl, rfl, hk, hkl, hkc, ticket, _, _, rfl, rfl, ht, htl, htc, rfl, rfl⟩
    simp only [serverMessage, List.append_assoc, List.append_nil]

theorem ticketValid_iff : socketRendezvousTicketValid (some ticket) = true ↔
    ticket.length = 64 ∧ ∀ c ∈ ticket, isLowerHex c = true := by
  simp [socketRendezvousTicketValid, stringIsHexFixed]

theorem Word.of_ticketValid (h : socketRendezvousTicketValid (some ticket) = true) :
    Word 64 isLowerHex ticket := by
  obtain ⟨hlen, hall⟩ := ticketValid_iff.mp h
  refine ⟨?_, hlen.le, hall⟩
  rintro rfl
  cases hlen

/-- A text that fits is printed in full. -/
theorem snprintf_of_lt {size : ℕ} {text : List Char} (h : text.length < size) :
    snprintf size text = text :=
  List.take_of_length_le (by omega)

/-- All destinations are there. -/
def ClientOutput.Given (out : ClientOutput) : Prop :=
  out.host = true ∧ out.port = true ∧ out.ticket = true

/-- The messages that are accepted as client candidates. -/
theorem clientCandidateParse_iff (out : ClientOutput) (c : ClientCandidate) :
    socketRendezvousClientCandidateParse p (some message) out = some c ↔
      ∃ spelling n, message = clientMessage c.host spelling c.ticket ∧ out.Given ∧
        Word 64 isHostChar c.host ∧ Numeral p.wide spelling n ∧ 0 < n ∧ n ≤ 65535 ∧
        socketRendezvousHostValid p (some c.host) = true ∧
        socketRendezvousTicketValid (some c.ticket) = true ∧ c.host.length < out.hostSize ∧
        c.port = n.toUInt16 := by
  unfold socketRendezvousClientCandidateParse
  dsimp only
  constructor
  · intro h
    split_ifs at h with hout
    push Not at hout
    obtain ⟨hhost, hsize, hport, hticket⟩ := hout
    split at h
    · rename_i parsedHost parsedPort parsedTicket consumed hscan
      split_ifs at h with hbad
      push Not at hbad
      obtain ⟨hend, hpos, hmax, hhostValid, hticketValid, hlen⟩ := hbad
      obtain ⟨host, spelling, n, ticket, rfl, hvalues, hhostWord, hnum, _⟩ :=
        client_scans.mp ((sscanf_whole (List.cons_ne_nil _ _)).mp ⟨consumed, hscan, hend⟩)
      simp only [List.cons.injEq, Value.word.injEq, Value.number.injEq, and_true] at hvalues
      obtain ⟨rfl, rfl, rfl⟩ := hvalues
      obtain rfl := Option.some.inj h
      have hticketLen := (ticketValid_iff.mp (by simpa using hticketValid)).1
      have hhostText : snprintf out.hostSize parsedHost = parsedHost := snprintf_of_lt hlen
      have hticketText : snprintf 65 parsedTicket = parsedTicket :=
        snprintf_of_lt (by omega)
      dsimp only
      rw [hhostText, hticketText]
      exact ⟨spelling, parsedPort, rfl, ⟨by simpa using hhost, by simpa using hport,
        by simpa using hticket⟩, hhostWord, hnum, Nat.pos_of_ne_zero hpos, hmax,
        by simpa using hhostValid, by simpa using hticketValid, hlen, rfl⟩
    · cases h
  · rintro ⟨spelling, n, rfl, ⟨hhost, hport, hticket⟩, hhostWord, hnum, hpos, hmax, hhostValid,
      hticketValid, hlen, hc⟩
    have hticketLen := (ticketValid_iff.mp hticketValid).1
    obtain ⟨consumed, hscan, hend⟩ := (sscanf_whole (List.cons_ne_nil _ _)).mpr
      (client_scans.mpr ⟨c.host, spelling, n, c.ticket, rfl, rfl, hhostWord, hnum,
        .of_ticketValid hticketValid⟩)
    rw [hscan, hhost, hport, hticket, if_neg (by simp; omega)]
    dsimp only
    rw [hend, hhostValid, hticketValid, if_neg (by simp; omega), snprintf_of_lt hlen,
      snprintf_of_lt (by omega), ← hc]

theorem kindName_word (kind : SocketCandidateKind) :
    Word 15 isKindChar (socketCandidateKindName kind) := by
  cases kind <;> exact ⟨by decide, by decide, List.all_eq_true.mp (by decide)⟩

theorem kindParse_iff (name : List Char) : socketCandidateKindParse name = some kind ↔
    kind ≠ .num ∧ name = socketCandidateKindName kind := by
  constructor
  · intro h
    refine ⟨?_, by simpa using List.find?_some h⟩
    have hmem := List.mem_of_find?_eq_some h
    rintro rfl
    simp at hmem
  · rintro ⟨hkind, rfl⟩
    cases kind <;> first | rfl | exact absurd rfl hkind

/-- The messages that are accepted as server candidates. -/
theorem serverCandidateParse_iff (c : SocketDirectCandidate) :
    socketRendezvousServerCandidateParse p (some message) (some ticket) true = some c ↔
      ∃ spelling n,
        message = serverMessage c.host spelling (socketCandidateKindName c.kind) ticket ∧
        Word 64 isHostChar c.host ∧ Numeral p.wide spelling n ∧ 0 < n ∧ n ≤ 65535 ∧
        socketRendezvousHostValid p (some c.host) = true ∧
        socketRendezvousTicketValid (some ticket) = true ∧ c.kind ≠ .num ∧
        c.port = n.toUInt16 := by
  unfold socketRendezvousServerCandidateParse
  dsimp only
  constructor
  · intro h
    have hout : socketRendezvousTicketValid (some ticket) = true := by
      by_contra hno
      rw [if_pos (Or.inr (by simpa using hno))] at h
      cases h
    rw [if_neg (by simp [hout])] at h
    split at h
    · rename_i parsedHost parsedPort parsedKind parsedTicket consumed hscan
      split_ifs at h with hbad
      push Not at hbad
      obtain ⟨hend, hpos, hmax, rfl, hhostValid⟩ := hbad
      obtain ⟨host, spelling, n, kind, ticket, rfl, hvalues, hhostWord, hnum, _, _⟩ :=
        server_scans.mp ((sscanf_whole (List.cons_ne_nil _ _)).mp ⟨consumed, hscan, hend⟩)
      simp only [List.cons.injEq, Value.word.injEq, Value.number.injEq, and_true] at hvalues
      obtain ⟨rfl, rfl, rfl, rfl⟩ := hvalues
      split at h
      · cases h
      · rename_i kind hkind
        obtain ⟨hknown, rfl⟩ := (kindParse_iff _).mp hkind
        obtain rfl := Option.some.inj h
        have hhostText : snprintf 65 parsedHost = parsedHost :=
          snprintf_of_lt (Nat.lt_succ_of_le hhostWord.2.1)
        dsimp only
        rw [hhostText]
        exact ⟨spelling, parsedPort, rfl, hhostWord, hnum, Nat.pos_of_ne_zero hpos, hmax,
          by simpa using hhostValid, hout, hknown, rfl⟩
    · cases h
  · rintro ⟨spelling, n, rfl, hhostWord, hnum, hpos, hmax, hhostValid, hticketValid, hkind, hc⟩
    obtain ⟨consumed, hscan, hend⟩ := (sscanf_whole (List.cons_ne_nil _ _)).mpr
      (server_scans.mpr ⟨c.host, spelling, n, socketCandidateKindName c.kind, ticket, rfl, rfl,
        hhostWord, hnum, kindName_word c.kind, .of_ticketValid hticketValid⟩)
    rw [hscan, hticketValid, if_neg (by simp)]
    dsimp only
    rw [hend, hhostValid, if_neg (by simp; omega), (kindParse_iff _).mpr ⟨hkind, rfl⟩]
    dsimp only
    rw [snprintf_of_lt (Nat.lt_succ_of_le hhostWord.2.1), ← hc]

end LibAtrinik.Rendezvous

import LibAtrinik.SocketRendezvousMessages

namespace LibAtrinik.Rendezvous

open ScanFormat

variable {p : Platform} {wide : Bool → ℕ → ℕ} {message host spelling ticket : List Char} {n : ℕ}

def afterComma (message : List Char) : List Char := (message.dropWhile (· != ',')).drop 1

/-- The characters between `"port":` and the next comma. -/
def portSpelling (message : List Char) : List Char :=
  ((afterComma (afterComma message)).drop 7).takeWhile (· != ',')

/-- At most five digits, of which the first is not zero. -/
def Plain (spelling : List Char) : Prop :=
  spelling.length ≤ 5 ∧ (∀ c ∈ spelling, c.isDigit = true) ∧ spelling.head? ≠ some '0'

theorem ne_comma {accepts : Char → Bool} {word : List Char} (hcomma : accepts ',' = false)
    (hword : ∀ c ∈ word, accepts c = true) : ∀ c ∈ word, (c != ',') = true := by
  intro c hc
  rw [bne_iff_ne]
  rintro rfl
  rw [hword ',' hc] at hcomma
  cases hcomma

theorem afterComma_append {front : List Char} (h : ∀ c ∈ front, (c != ',') = true)
    (back : List Char) : afterComma (front ++ ',' :: back) = back := by
  rw [afterComma, dropWhile_append_cons h (by decide)]
  rfl

theorem portSpelling_append {front middle : List Char} (hfront : ∀ c ∈ front, (c != ',') = true)
    (hmiddle : ∀ c ∈ middle, (c != ',') = true) (hspelling : ∀ c ∈ spelling, (c != ',') = true)
    (back : List Char) :
    portSpelling (front ++ ',' :: (middle ++ ',' :: ("\"port\":".toList ++
      (spelling ++ ',' :: back)))) = spelling := by
  rw [portSpelling, afterComma_append hfront, afterComma_append hmiddle]
  exact takeWhile_append_cons hspelling (by decide)

theorem numeral_ne_comma (h : Numeral wide spelling n) :
    ∀ c ∈ spelling, (c != ',') = true := by
  obtain ⟨spaces, sign, digits, rfl, hspaces, hsign, _, hdigits, _⟩ := h
  intro c hc
  rcases List.mem_append.mp hc with hc | hc
  · rcases List.mem_append.mp hc with hc | hc
    · exact ne_comma (by decide) hspaces c hc
    · rcases hsign with rfl | rfl | rfl
      · cases hc
      · rw [List.mem_singleton.mp hc]
        decide
      · rw [List.mem_singleton.mp hc]
        decide
  · exact ne_comma (by decide) hdigits c hc

theorem hostMember_ne_comma (hhost : Word 64 isHostChar host) :
    ∀ c ∈ "\"host\":\"".toList ++ host ++ ['"'], (c != ',') = true := by
  have hname : ∀ c ∈ "\"host\":\"".toList, (c != ',') = true :=
    List.all_eq_true.mp (by decide)
  have hquote : ∀ c ∈ ['"'], (c != ',') = true :=
    List.all_eq_true.mp (by decide)
  intro c hc
  rcases List.mem_append.mp hc with hc | hc
  · rcases List.mem_append.mp hc with hc | hc
    · exact hname c hc
    · exact ne_comma (by decide) hhost.2.2 c hc
  · exact hquote c hc

theorem clientHead_split : clientHead =
    "\x7b\"type\":\"client_candidate\"".toList ++ ',' :: "\"host\":\"".toList := by decide

theorem serverHead_split : serverHead =
    "\x7b\"type\":\"server_candidate\"".toList ++ ',' :: "\"host\":\"".toList := by decide

theorem portText_split : portText = ['"'] ++ ',' :: "\"port\":".toList := by decide

theorem portSpelling_member {front : List Char} (hfront : ∀ c ∈ front, (c != ',') = true)
    (hhost : Word 64 isHostChar host) (hnum : Numeral wide spelling n) (back : List Char) :
    portSpelling (front ++ ',' :: "\"host\":\"".toList ++ host ++ portText ++ spelling ++
      ',' :: back) = spelling := by
  have h := portSpelling_append hfront (hostMember_ne_comma hhost) (numeral_ne_comma hnum) back
  rw [portText_split]
  simp only [List.append_assoc, List.cons_append] at h ⊢
  exact h

theorem portSpelling_client (hhost : Word 64 isHostChar host)
    (hnum : Numeral wide spelling n) (ticket : List Char) :
    portSpelling (clientMessage host spelling ticket) = spelling := by
  have hfront : ∀ c ∈ "\x7b\"type\":\"client_candidate\"".toList, (c != ',') = true :=
    List.all_eq_true.mp (by decide)
  have hticket : clientTicketText = ',' :: "\"ticket\":\"".toList := by decide
  have h := portSpelling_member hfront hhost hnum ("\"ticket\":\"".toList ++ ticket ++ tailText)
  rw [clientMessage, clientHead_split, hticket]
  simp only [List.append_assoc, List.cons_append] at h ⊢
  exact h

theorem portSpelling_server (hhost : Word 64 isHostChar host)
    (hnum : Numeral wide spelling n) (kind ticket : List Char) :
    portSpelling (serverMessage host spelling kind ticket) = spelling := by
  have hfront : ∀ c ∈ "\x7b\"type\":\"server_candidate\"".toList, (c != ',') = true :=
    List.all_eq_true.mp (by decide)
  have hkind : kindText = ',' :: "\"kind\":\"".toList := by decide
  have h := portSpelling_member hfront hhost hnum
    ("\"kind\":\"".toList ++ kind ++ serverTicketText ++ ticket ++ tailText)
  rw [serverMessage, serverHead_split, hkind]
  simp only [List.append_assoc, List.cons_append] at h ⊢
  exact h

/-- A spelling of a port is the printed one exactly if it is plain. -/
theorem numeral_eq_toDigits_iff (hnum : Numeral wide spelling n) (hpos : 0 < n) (hmax : n ≤ 65535) :
    spelling = Nat.toDigits 10 n ↔ Plain spelling := by
  constructor
  · rintro rfl
    refine ⟨?_, ?_, head_toDigits n hpos⟩
    · exact (Nat.length_toDigits_le_iff (by decide) (by decide)).mpr (by omega)
    · exact fun c hc => Nat.isDigit_of_mem_toDigits (by decide) (by decide) hc
  · rintro ⟨hlen, hdigit, hhead⟩
    obtain ⟨spaces, sign, digits, rfl, hspaces, hsign, hne, hdigits, rfl⟩ := hnum
    -- neither white space nor a sign consists of digits
    obtain rfl : spaces = [] := by
      by_contra h
      obtain ⟨x, xs, rfl⟩ := List.exists_cons_of_ne_nil h
      have hspace := hspaces x List.mem_cons_self
      rw [isSpace_of_isDigit x (hdigit x (by simp))] at hspace
      cases hspace
    obtain rfl : sign = [] := by
      rcases hsign with rfl | rfl | rfl
      · rfl
      · exact absurd (hdigit '+' (by simp)) (by decide)
      · exact absurd (hdigit '-' (by simp)) (by decide)
    rw [List.nil_append, List.nil_append] at hlen hhead ⊢
    have hlt := ofDigitChars_lt digits hdigits
    have hpow : 10^digits.length ≤ 10^5 := Nat.pow_le_pow_right (by decide) hlen
    have hvalue : unsignedValue wide (decide ([] = ['-'])) (Nat.ofDigitChars 10 digits 0) =
        Nat.ofDigitChars 10 digits 0 := by
      unfold unsignedValue
      rw [if_pos ⟨by omega, Or.inl rfl⟩]
    rw [hvalue, toDigits_ofDigitChars digits hne hdigits hhead]

theorem portDigits_toUInt16 (hmax : n ≤ 65535) : portDigits n.toUInt16 = Nat.toDigits 10 n := by
  rw [portDigits, UInt16.toNat_ofNat_of_lt' (show n < 65536 by omega)]

theorem clientMessage_inj {spelling' : List Char} :
    clientMessage host spelling ticket = clientMessage host spelling' ticket ↔
      spelling = spelling' := by
  unfold clientMessage
  simp only [List.append_assoc, List.append_cancel_left_eq, List.append_left_inj]

theorem serverMessage_inj {kind spelling' : List Char} :
    serverMessage host spelling kind ticket = serverMessage host spelling' kind ticket ↔
      spelling = spelling' := by
  unfold serverMessage
  simp only [List.append_assoc, List.append_cancel_left_eq, List.append_left_inj]

/-- A message that fits is what a text is rendered to exactly if it is the text. -/
theorem render_fits_iff {text : List Char} {render : ℕ → Option (List Char)}
    (hrender : ∀ size, render size = if text.length < size then some text else none) :
    (∀ size, message.length < size → render size = some message) ↔ message = text := by
  constructor
  · intro h
    have hmessage := h (message.length+1) (Nat.lt_succ_self _)
    rw [hrender] at hmessage
    split_ifs at hmessage
    exact (Option.some.inj hmessage).symm
  · rintro rfl size hsize
    rw [hrender, if_pos hsize]

/-- An accepted message is the one that is rendered for its fields exactly if its port is spelled
plainly. -/
theorem accepted_rendered_iff_plain (p : Platform) (message : List Char) :
    (∀ out c, socketRendezvousClientCandidateParse p (some message) out = some c → ∀ kind,
      ((∀ size, message.length < size →
        socketRendezvousMessageRender p true size (some "client_candidate".toList) (some c.host)
          c.port kind (some c.ticket) = some message) ↔ Plain (portSpelling message))) ∧
    (∀ ticket c, socketRendezvousServerCandidateParse p (some message) (some ticket) true = some c →
      ((∀ size, message.length < size →
        socketRendezvousMessageRender p true size (some "server_candidate".toList) (some c.host)
          c.port c.kind (some ticket) = some message) ↔ Plain (portSpelling message))) := by
  constructor
  · intro out c hc kind
    obtain ⟨spelling, n, rfl, _, hword, hnum, hpos, hmax, hhost, hticket, _, hport⟩ :=
      (clientCandidateParse_iff out c).mp hc
    rw [render_fits_iff (messageRender_eq hticket (messageText_client hhost)), clientMessage_inj,
      hport, portDigits_toUInt16 hmax, portSpelling_client hword hnum]
    exact numeral_eq_toDigits_iff hnum hpos hmax
  · intro ticket c hc
    obtain ⟨spelling, n, rfl, hword, hnum, hpos, hmax, hhost, hticket, hkind, hport⟩ :=
      (serverCandidateParse_iff c).mp hc
    rw [render_fits_iff (messageRender_eq hticket (messageText_server hhost hkind)),
      serverMessage_inj, hport, portDigits_toUInt16 hmax, portSpelling_server hword hnum]
    exact numeral_eq_toDigits_iff hnum hpos hmax

def plainMessage : List Char :=
  clientMessage "192.0.2.1".toList "443".toList (List.replicate 64 'a')

theorem accepted_rendered_iff_plain_documentation :
    socketRendezvousMessageRender documentation true 256 (some "client_candidate".toList)
      (some "192.0.2.1".toList) 443 .lan (some (List.replicate 64 'a')) = some plainMessage :=
  ((accepted_rendered_iff_plain documentation plainMessage).1 { hostSize := 65 }
    ⟨"192.0.2.1".toList, 443, List.replicate 64 'a'⟩ (by decide +kernel) .lan).mpr
    ⟨by decide +kernel, List.all_eq_true.mp (by decide +kernel), by decide +kernel⟩ 256 (by decide +kernel)

/-- Messages in which the port has a leading zero or comes after a space and a sign. -/
theorem accepted_not_rendered :
    let ticket := List.replicate 64 'a'
    let client := clientMessage "192.0.2.1".toList "0443".toList ticket
    let server := serverMessage "192.0.2.1".toList " +443".toList "lan".toList ticket
    socketRendezvousClientCandidateParse documentation (some client) { hostSize := 65 } =
        some ⟨"192.0.2.1".toList, 443, ticket⟩ ∧
      socketRendezvousMessageRender documentation true 256 (some "client_candidate".toList)
        (some "192.0.2.1".toList) 443 .lan (some ticket) ≠ some client ∧
      socketRendezvousServerCandidateParse documentation (some server) (some ticket) true =
        some ⟨"192.0.2.1".toList, 443, .lan⟩ ∧
      socketRendezvousMessageRender documentation true 256 (some "server_candidate".toList)
        (some "192.0.2.1".toList) 443 .lan (some ticket) ≠ some server := by
  decide +kernel

end LibAtrinik.Rendezvous

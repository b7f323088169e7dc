import LibAtrinik.SocketStun

namespace LibAtrinik.Stun

/-- An attribute with the bytes that fill it up to a multiple of four. -/
structure StunAttribute where
  type : UInt16
  value : List UInt8
  padding : List UInt8
  fits : value.length < 2^16
  padded : value.length+padding.length = paddedLength value.length

def StunAttribute.encode (a : StunAttribute) : List UInt8 :=
  BigEndian.bytes 2 a.type.toNat ++ BigEndian.bytes 2 a.value.length ++ a.value ++ a.padding

/-- The sizes of the addresses of the two families. -/
def StunAddress.WellFormed (a : StunAddress) : Prop :=
  (a.family = 1 ∧ a.address.length = 4) ∨ (a.family = 2 ∧ a.address.length = 16)

instance (a : StunAddress) : Decidable a.WellFormed := inferInstanceAs (Decidable (_ ∨ _))

/-- An XOR-MAPPED-ADDRESS attribute; its first byte is reserved. -/
def xorMapped (id : List UInt8) (reserved : UInt8) (a : StunAddress) : List UInt8 :=
  BigEndian.bytes 2 0x0020 ++ BigEndian.bytes 2 (4+a.address.length) ++ [reserved, a.family] ++
    BigEndian.bytes 2 (a.port ^^^ stunPortMask).toNat ++
    List.zipWith (· ^^^ ·) a.address (stunMask id)

/-- A successful response to a request. -/
def stunMessage (id body : List UInt8) : List UInt8 :=
  BigEndian.bytes 2 0x0101 ++ BigEndian.bytes 2 body.length ++
    BigEndian.bytes 4 socketStunMagic.toNat ++ id ++ body

theorem bytesAt_append (front bytes back : List UInt8) (offset : ℕ) (h : front.length = offset) :
    bytesAt (front ++ bytes ++ back) offset bytes.length = some bytes := by
  have hin : offset+bytes.length ≤ (front ++ bytes ++ back).length := by
    rw [List.length_append, List.length_append]
    omega
  rw [bytesAt_eq_some hin, List.append_assoc, ← h, List.drop_left, List.take_left]

theorem u16_append (front back : List UInt8) (offset v : ℕ) (h : front.length = offset)
    (hv : v < 2^16) :
    socketStunU16 (front ++ BigEndian.bytes 2 v ++ back) offset = some (UInt16.ofNat v) := by
  have hread := bytesAt_append front (BigEndian.bytes 2 v) back offset h
  have hlength := BigEndian.length_bytes 2 v
  rw [hlength] at hread
  rw [socketStunU16, hread, Option.map_some]
  congr 1
  apply UInt16.toNat_inj.mp
  show (BigEndian.joined 16 _).toNat = _
  rw [BigEndian.toNat_joined 16 _ (by rw [hlength]), BigEndian.value_bytes 2 v hv]
  exact (UInt16.toNat_ofNat_of_lt' hv).symm

theorem u32_append (front back : List UInt8) (offset : ℕ) (v : UInt32) (h : front.length = offset) :
    socketStunU32 (front ++ BigEndian.bytes 4 v.toNat ++ back) offset = some v := by
  have hread := bytesAt_append front (BigEndian.bytes 4 v.toNat) back offset h
  have hlength := BigEndian.length_bytes 4 v.toNat
  rw [hlength] at hread
  rw [socketStunU32, hread, Option.map_some]
  congr 1
  apply UInt32.toNat_inj.mp
  show (BigEndian.joined 32 _).toNat = _
  rw [BigEndian.toNat_joined 32 _ (by rw [hlength]), BigEndian.value_bytes 4 _ v.toNat_lt]

variable {id : List UInt8} {address : StunAddress}

theorem xor_mask_mask (address mask : List UInt8) (h : address.length ≤ mask.length) :
    List.zipWith (· ^^^ ·) (List.zipWith (· ^^^ ·) address mask) mask = address := by
  induction address generalizing mask with
  | nil => rfl
  | cons b address ih =>
    cases mask with
    | nil => exact absurd h (Nat.not_succ_le_zero _)
    | cons m mask =>
      rw [List.zipWith_cons_cons, List.zipWith_cons_cons, ih mask (Nat.le_of_succ_le_succ h),
        UInt8.xor_assoc, UInt8.xor_self, UInt8.xor_zero]

theorem StunAddress.WellFormed.length_eq (h : address.WellFormed) :
    address.address.length = addressLength address.family ∧ addressLength address.family ≠ 0 ∧
      addressLength address.family ≤ 16 ∧ 4 ≤ addressLength address.family := by
  rcases h with ⟨hf, hl⟩ | ⟨hf, hl⟩
  · rw [hf, hl]
    decide
  · rw [hf, hl]
    decide

/-- The value of a mapped address is taken apart into what it was put together from. -/
theorem stunMapped_xorMapped (hid : id.length = 12) (h : address.WellFormed) (reserved : UInt8)
    (front back : List UInt8) (offset : ℕ) (hoffset : front.length = offset) :
    stunMapped id (front ++ xorMapped id reserved address ++ back) (offset+4)
      (4+address.address.length) = .mapped address := by
  obtain ⟨hlength, hnonzero, hmax, _⟩ := h.length_eq
  set head := BigEndian.bytes 2 0x0020 ++ BigEndian.bytes 2 (4+address.address.length) with hhead
  set port := BigEndian.bytes 2 (address.port ^^^ stunPortMask).toNat with hport
  set masked := List.zipWith (· ^^^ ·) address.address (stunMask id) with hmasked
  have hheadLength : head.length = 4 := by
    rw [hhead, List.length_append, BigEndian.length_bytes, BigEndian.length_bytes]
  have hmask : (stunMask id).length = 16 := by
    rw [stunMask, List.length_append, hid]
    rfl
  have hmaskedLength : masked.length = addressLength address.family := by
    rw [hmasked, List.length_zipWith, hmask, hlength]
    omega
  have hmessage : front ++ xorMapped id reserved address ++ back =
      front ++ head ++ [reserved] ++ [address.family] ++ port ++ masked ++ back := by
    simp only [xorMapped, hhead, hport, hmasked, List.append_assoc, List.cons_append, List.nil_append]
  have hportLength : port.length = 2 := BigEndian.length_bytes ..
  have hfamily : bytesAt (front ++ xorMapped id reserved address ++ back) (offset+4+1) 1 =
      some [address.family] := by
    rw [hmessage, List.append_assoc, List.append_assoc]
    refine bytesAt_append (front ++ head ++ [reserved]) [address.family] _ _ ?_
    simp only [List.length_append, hheadLength, hoffset, List.length_singleton]
  have hportRead : socketStunU16 (front ++ xorMapped id reserved address ++ back) (offset+4+2) =
      some (address.port ^^^ stunPortMask) := by
    rw [hmessage, List.append_assoc]
    have hread := u16_append (front ++ head ++ [reserved] ++ [address.family]) (masked ++ back)
      (offset+4+2) (address.port ^^^ stunPortMask).toNat
      (by simp only [List.length_append, hheadLength, hoffset, List.length_singleton])
      (address.port ^^^ stunPortMask).toNat_lt
    rwa [UInt16.ofNat_toNat] at hread
  have haddress : bytesAt (front ++ xorMapped id reserved address ++ back) (offset+4+4)
      (addressLength address.family) = some masked := by
    rw [hmessage, ← hmaskedLength]
    refine bytesAt_append _ masked back _ ?_
    simp only [List.length_append, hheadLength, hoffset, List.length_singleton, hportLength]
  unfold stunMapped
  rw [hfamily, hportRead]
  dsimp only
  rw [if_neg (by omega), haddress]
  have hbytes : List.zipWith (· ^^^ ·) masked (stunMask id) = address.address :=
    xor_mask_mask _ _ (by omega)
  have hportBack : address.port ^^^ stunPortMask ^^^ stunPortMask = address.port := by
    rw [UInt16.xor_assoc, UInt16.xor_self, UInt16.xor_zero]
  show StunOutcome.mapped ⟨address.family, List.zipWith (· ^^^ ·) masked (stunMask id),
    address.port ^^^ stunPortMask ^^^ stunPortMask⟩ = .mapped address
  rw [hbytes, hportBack]

theorem StunAttribute.encode_length (a : StunAttribute) :
    a.encode.length = 4+paddedLength a.value.length := by
  have hpadded := a.padded
  unfold StunAttribute.encode
  rw [List.length_append, List.length_append, List.length_append, BigEndian.length_bytes,
    BigEndian.length_bytes]
  omega

theorem xorMapped_length (hid : id.length = 12) (h : address.WellFormed) (reserved : UInt8) :
    (xorMapped id reserved address).length = 8+address.address.length := by
  obtain ⟨hlength, _, hmax, _⟩ := h.length_eq
  have hmask : (stunMask id).length = 16 := by
    rw [stunMask, List.length_append, hid]
    rfl
  unfold xorMapped
  simp only [List.length_append, BigEndian.length_bytes, List.length_zipWith, hmask,
    List.length_cons, List.length_nil]
  omega

/-- The walk passes an attribute of another type with its padding. -/
theorem round_attribute (a : StunAttribute) (hother : a.type ≠ 0x0020) (front back : List UInt8)
    (messageLength offset : ℕ) (hoffset : front.length = offset)
    (hin : offset+a.encode.length ≤ 20+messageLength)
    (hmessage : 20+messageLength ≤ (front ++ a.encode ++ back).length) :
    stunRound id (front ++ a.encode ++ back) messageLength offset =
      .inl (offset+a.encode.length) := by
  have hlength := a.encode_length
  have htype : socketStunU16 (front ++ a.encode ++ back) offset = some a.type := by
    have hread := u16_append front (BigEndian.bytes 2 a.value.length ++ a.value ++ a.padding ++ back)
      offset a.type.toNat hoffset a.type.toNat_lt
    rw [UInt16.ofNat_toNat] at hread
    simpa only [StunAttribute.encode, List.append_assoc] using hread
  have hvalue : socketStunU16 (front ++ a.encode ++ back) (offset+2) =
      some (UInt16.ofNat a.value.length) := by
    have hread := u16_append (front ++ BigEndian.bytes 2 a.type.toNat)
      (a.value ++ a.padding ++ back) (offset+2) a.value.length
      (by rw [List.length_append, BigEndian.length_bytes, hoffset]) a.fits
    simpa only [StunAttribute.encode, List.append_assoc] using hread
  have hnat : (UInt16.ofNat a.value.length).toNat = a.value.length :=
    UInt16.toNat_ofNat_of_lt' a.fits
  have hpad := le_paddedLength a.value.length
  have hcases := stunRound_at id (front ++ a.encode ++ back) messageLength offset hmessage (by omega)
    htype hvalue
  rw [hnat] at hcases
  rcases hcases with ⟨hover, _⟩ | ⟨_, hkind, _⟩ | ⟨_, _, he⟩
  · omega
  · exact absurd hkind hother
  · rw [he, hlength, Nat.add_assoc]

/-- The walk ends at the mapped address. -/
theorem round_xorMapped (hid : id.length = 12) (h : address.WellFormed) (reserved : UInt8)
    (front back : List UInt8) (messageLength offset : ℕ) (hoffset : front.length = offset)
    (hin : offset+(xorMapped id reserved address).length ≤ 20+messageLength)
    (hmessage : 20+messageLength ≤ (front ++ xorMapped id reserved address ++ back).length) :
    stunRound id (front ++ xorMapped id reserved address ++ back) messageLength offset =
      .inr (.mapped address) := by
  obtain ⟨hlength, _, hmax, hmin⟩ := h.length_eq
  have hall := xorMapped_length hid h reserved
  have htype : socketStunU16 (front ++ xorMapped id reserved address ++ back) offset =
      some 0x0020 := by
    have hread := u16_append front (BigEndian.bytes 2 (4+address.address.length) ++
      [reserved, address.family] ++ BigEndian.bytes 2 (address.port ^^^ stunPortMask).toNat ++
      List.zipWith (· ^^^ ·) address.address (stunMask id) ++ back) offset 0x0020 hoffset (by decide)
    rw [show UInt16.ofNat 0x0020 = 0x0020 from rfl] at hread
    simpa only [xorMapped, List.append_assoc] using hread
  have hvalue : socketStunU16 (front ++ xorMapped id reserved address ++ back) (offset+2) =
      some (UInt16.ofNat (4+address.address.length)) := by
    have hread := u16_append (front ++ BigEndian.bytes 2 0x0020)
      ([reserved, address.family] ++ BigEndian.bytes 2 (address.port ^^^ stunPortMask).toNat ++
      List.zipWith (· ^^^ ·) address.address (stunMask id) ++ back) (offset+2)
      (4+address.address.length)
      (by rw [List.length_append, BigEndian.length_bytes, hoffset]) (by omega)
    simpa only [xorMapped, List.append_assoc] using hread
  have hnat : (UInt16.ofNat (4+address.address.length)).toNat = 4+address.address.length :=
    UInt16.toNat_ofNat_of_lt' (by rw [UInt16.size]; omega)
  have hcases := stunRound_at id (front ++ xorMapped id reserved address ++ back) messageLength
    offset hmessage (by omega) htype hvalue
  rw [hnat] at hcases
  rcases hcases with ⟨hover, _⟩ | ⟨_, _, _, he⟩ | ⟨_, hother, _⟩
  · omega
  · rw [he, stunMapped_xorMapped hid h reserved front back offset hoffset]
  · exact absurd ⟨rfl, by omega⟩ hother

/-- The walk over attributes of other types up to the mapped address. -/
theorem walk_attributes (hid : id.length = 12) (h : address.WellFormed) (reserved : UInt8)
    (attributes : List StunAttribute) (hother : ∀ a ∈ attributes, a.type ≠ 0x0020)
    (front back : List UInt8) (messageLength offset : ℕ) (hoffset : front.length = offset)
    (hin : offset+(attributes.flatMap StunAttribute.encode).length+
      (xorMapped id reserved address).length ≤ 20+messageLength)
    (hmessage : 20+messageLength ≤ (front ++ attributes.flatMap StunAttribute.encode ++
      xorMapped id reserved address ++ back).length) :
    FuelLoop.run (stunRound id (front ++ attributes.flatMap StunAttribute.encode ++
      xorMapped id reserved address ++ back) messageLength) (attributes.length+1) offset =
        some (.mapped address) := by
  induction attributes generalizing front offset with
  | nil =>
    rw [List.flatMap_nil, List.append_nil] at hmessage ⊢
    exact FuelLoop.run_leave _ _ _ _
      (round_xorMapped hid h reserved front back messageLength offset hoffset hin hmessage)
  | cons a attributes ih =>
    have hsplit : front ++ (a :: attributes).flatMap StunAttribute.encode ++
        xorMapped id reserved address ++ back =
        front ++ a.encode ++ (attributes.flatMap StunAttribute.encode ++
          xorMapped id reserved address ++ back) := by
      simp only [List.flatMap_cons, List.append_assoc]
    have hsplit' : front ++ a.encode ++ (attributes.flatMap StunAttribute.encode ++
          xorMapped id reserved address ++ back) =
        (front ++ a.encode) ++ attributes.flatMap StunAttribute.encode ++
          xorMapped id reserved address ++ back := by
      simp only [List.append_assoc]
    rw [List.flatMap_cons, List.length_append] at hin
    rw [hsplit] at hmessage ⊢
    rw [List.length_cons, FuelLoop.run_continue _ _ _ _ (round_attribute a
      (hother a List.mem_cons_self) front _ messageLength offset hoffset (by omega) hmessage)]
    rw [hsplit'] at hmessage ⊢
    exact ih (fun b hb => hother b (List.mem_cons_of_mem a hb)) (front ++ a.encode)
      (offset+a.encode.length) (by rw [List.length_append, hoffset]) (by omega) hmessage

/-- The header of a successful response is accepted. -/
theorem stunResponse_message (hid : id.length = 12) (body extra : List UInt8)
    (hbody : body.length < 2^16) (fuel : ℕ) :
    stunResponse id (stunMessage id body ++ extra) fuel =
      FuelLoop.run (stunRound id (stunMessage id body ++ extra) body.length) fuel 20 := by
  have hlength : (stunMessage id body ++ extra).length = 20+body.length+extra.length := by
    unfold stunMessage
    simp only [List.length_append, BigEndian.length_bytes, hid]
  have htype : socketStunU16 (stunMessage id body ++ extra) 0 = some 0x0101 := by
    have hread := u16_append [] (BigEndian.bytes 2 body.length ++
      BigEndian.bytes 4 socketStunMagic.toNat ++ id ++ body ++ extra) 0 0x0101 rfl (by decide)
    rw [show UInt16.ofNat 0x0101 = 0x0101 from rfl] at hread
    simpa only [stunMessage, List.append_assoc, List.nil_append] using hread
  have hcount : socketStunU16 (stunMessage id body ++ extra) 2 = some (UInt16.ofNat body.length) := by
    have hread := u16_append (BigEndian.bytes 2 0x0101)
      (BigEndian.bytes 4 socketStunMagic.toNat ++ id ++ body ++ extra) 2 body.length
      (BigEndian.length_bytes ..) hbody
    simpa only [stunMessage, List.append_assoc] using hread
  have hmagic : socketStunU32 (stunMessage id body ++ extra) 4 = some socketStunMagic := by
    have hread := u32_append (BigEndian.bytes 2 0x0101 ++ BigEndian.bytes 2 body.length)
      (id ++ body ++ extra) 4 socketStunMagic
      (by rw [List.length_append, BigEndian.length_bytes, BigEndian.length_bytes])
    simpa only [stunMessage, List.append_assoc] using hread
  have htransaction : bytesAt (stunMessage id body ++ extra) 8 12 = some id := by
    have hread := bytesAt_append (BigEndian.bytes 2 0x0101 ++ BigEndian.bytes 2 body.length ++
      BigEndian.bytes 4 socketStunMagic.toNat) id (body ++ extra) 8
      (by simp only [List.length_append, BigEndian.length_bytes])
    rw [hid] at hread
    simpa only [stunMessage, List.append_assoc] using hread
  have hnat : (UInt16.ofNat body.length).toNat = body.length := UInt16.toNat_ofNat_of_lt' hbody
  unfold stunResponse
  rw [if_neg (by omega), htype, hmagic, htransaction, hcount]
  dsimp only
  rw [if_neg (by simp), hnat, if_neg (by omega)]

/-- The walk over a response ends without a read outside the datagram, and a mapped address
that follows well-formed attributes of other types is found whatever follows it. -/
theorem stun_decodes (id : List UInt8) :
    (∀ datagram, ∃ outcome, outcome ≠ .outside ∧
      ∀ fuel > responseSize, socketStunDiscover id datagram fuel = some outcome) ∧
    ∀ (attributes : List StunAttribute) (reserved : UInt8) (address : StunAddress)
      (trailing extra : List UInt8),
      let body := attributes.flatMap StunAttribute.encode ++ xorMapped id reserved address ++ trailing
      id.length = 12 → (∀ a ∈ attributes, a.type ≠ 0x0020) → address.WellFormed →
      20+body.length ≤ responseSize → ∀ fuel > responseSize,
      socketStunDiscover id (stunMessage id body ++ extra) fuel = some (.mapped address) := by
  have hends (datagram : List UInt8) : ∃ outcome, outcome ≠ .outside ∧
      ∀ fuel > responseSize, socketStunDiscover id datagram fuel = some outcome :=
    stunResponse_ends id _ responseSize (List.length_take_le ..)
  refine ⟨hends, ?_⟩
  intro attributes reserved address trailing extra body hid hother haddress hfits fuel hfuel
  obtain ⟨outcome, _, hall⟩ := hends (stunMessage id body ++ extra)
  rw [hall fuel hfuel]
  set header := BigEndian.bytes 2 0x0101 ++ BigEndian.bytes 2 body.length ++
    BigEndian.bytes 4 socketStunMagic.toNat ++ id with hheader
  have hheaderLength : header.length = 20 := by
    simp only [hheader, List.length_append, BigEndian.length_bytes, hid]
  have hmessageLength : (stunMessage id body).length = 20+body.length := by
    rw [stunMessage, ← hheader, List.length_append, hheaderLength]
  have hlarge : responseSize = 1024 := rfl
  -- what is received is the whole message and the first of the bytes after it
  have hreceived : (stunMessage id body ++ extra).take responseSize =
      stunMessage id body ++ extra.take (responseSize-(20+body.length)) := by
    rw [List.take_append, hmessageLength, List.take_of_length_le (by omega)]
  have hrun := hall (responseSize+1) (Nat.lt_succ_self _)
  rw [socketStunDiscover, hreceived, stunResponse_message hid body _ (by omega)] at hrun
  set rest := extra.take (responseSize-(20+body.length)) with hrest
  have hbody : body.length = (attributes.flatMap StunAttribute.encode).length+
      (xorMapped id reserved address).length+trailing.length := by
    rw [← List.length_append, ← List.length_append]
  have hsplit : stunMessage id body ++ rest = header ++ attributes.flatMap StunAttribute.encode ++
      xorMapped id reserved address ++ (trailing ++ rest) := by
    rw [stunMessage, ← hheader]
    simp only [body, List.append_assoc]
  have hin : 20+body.length ≤ (stunMessage id body ++ rest).length := by
    have hboth : (stunMessage id body ++ rest).length = (stunMessage id body).length+rest.length :=
      List.length_append
    omega
  have hwalk := walk_attributes hid haddress reserved attributes hother header (trailing ++ rest)
    body.length 20 hheaderLength (by omega) (by rw [← hsplit]; exact hin)
  rw [← hsplit] at hwalk
  rw [FuelLoop.run_unique _ _ _ _ _ _ hrun hwalk]

/-- An attribute of five bytes, with three bytes of padding. -/
def software : StunAttribute where
  type := 0x8022
  value := [97, 98, 99, 100, 101]
  padding := [0, 0, 0]
  fits := by decide
  padded := by decide

/-- The address 192.0.2.1 after a padded attribute, with bytes after the message. -/
theorem stun_decodes_padded :
    let id : List UInt8 := [1, 2, 3, 4, 5, 6, 7, 8, 9, 10, 11, 12]
    let address : StunAddress := ⟨1, [192, 0, 2, 1], 32853⟩
    socketStunDiscover id
      (stunMessage id ([software].flatMap StunAttribute.encode ++ xorMapped id 0 address ++ []) ++
        [255, 255]) 2000 = some (.mapped address) :=
  (stun_decodes [1, 2, 3, 4, 5, 6, 7, 8, 9, 10, 11, 12]).2 [software] 0 ⟨1, [192, 0, 2, 1], 32853⟩ []
    [255, 255] rfl (by decide) (by decide) (by decide) 2000 (by decide)

section Prefixes

/-- An attribute of a message starts at the offset, and the walk comes to it. -/
inductive Reaches (message : List UInt8) : ℕ → Prop where
  | first : Reaches message 20
  | next (offset : ℕ) (type valueLength : UInt16) (h : Reaches message offset)
      (hin : offset+4 ≤ message.length) (htype : socketStunU16 message offset = some type)
      (hlength : socketStunU16 message (offset+2) = some valueLength)
      (hother : ¬(type = 0x0020 ∧ 8 ≤ valueLength.toNat)) :
      Reaches message (offset+4+paddedLength valueLength.toNat)

/-- A message that the header accepts as a response to the request. -/
structure Genuine (id message : List UInt8) : Prop where
  type : socketStunU16 message 0 = some 0x0101
  magic : socketStunU32 message 4 = some socketStunMagic
  transaction : bytesAt message 8 12 = some id

/-- A mapped address begins in the message and ends after it, in a place where the buffer can
still hold bytes; and the family, if it is in the message, does not rule the address out. -/
structure Overhangs (message : List UInt8) (offset : ℕ) (valueLength : UInt16) : Prop where
  reached : Reaches message offset
  begins : offset+4 ≤ message.length
  type : socketStunU16 message offset = some 0x0020
  length : socketStunU16 message (offset+2) = some valueLength
  long : 8 ≤ valueLength.toNat
  ends : message.length < offset+4+valueLength.toNat
  held : offset+4+valueLength.toNat ≤ responseSize
  family : ∀ family, bytesAt message (offset+5) 1 = some [family] →
    addressLength family ≠ 0 ∧ 4+addressLength family ≤ valueLength.toNat

/-- Two datagrams that begin with the message come to the same. -/
def Decides (id message : List UInt8) : Prop :=
  ∀ datagram datagram', message <+: datagram → message <+: datagram' →
    ∀ fuel > responseSize, socketStunDiscover id datagram fuel = socketStunDiscover id datagram' fuel

variable {message response : List UInt8} {messageLength : UInt16}

/-- The header of a received datagram is that of the message it begins with. -/
theorem stunResponse_header (hlong : 20 ≤ message.length)
    (hcount : socketStunU16 message 2 = some messageLength)
    (hfront : message.take 20 <+: response) (fuel : ℕ) :
    (¬Genuine id message ∧ stunResponse id response fuel = some .failed) ∨
    Genuine id message ∧ stunResponse id response fuel =
      if messageLength.toNat > response.length-20 then some .failed
      else FuelLoop.run (stunRound id response messageLength.toNat) fuel 20 := by
  have htake : (message.take 20).length = 20 := List.length_take_of_le hlong
  have hresponse : 20 ≤ response.length := htake ▸ hfront.length_le
  have hshorter : message.take 20 <+: message := List.take_prefix ..
  have h16 (offset : ℕ) (h : offset+2 ≤ 20) :
      socketStunU16 response offset = socketStunU16 message offset :=
    (u16_longer hfront (by omega)).trans (u16_longer hshorter (by omega)).symm
  have h32 : socketStunU32 response 4 = socketStunU32 message 4 :=
    (u32_longer hfront (by omega)).trans (u32_longer hshorter (by omega)).symm
  have hbytes : bytesAt response 8 12 = bytesAt message 8 12 :=
    (bytesAt_longer hfront (by omega)).trans (bytesAt_longer hshorter (by omega)).symm
  obtain ⟨type, htype⟩ := exists_u16 message 0 (by omega)
  obtain ⟨magic, hmagic⟩ := exists_u32 message 4 (by omega)
  obtain ⟨transaction, htransaction, _⟩ := exists_bytesAt message 8 12 (by omega)
  unfold stunResponse
  rw [if_neg (by omega), h16 0 (by omega), h16 2 (by omega), h32, hbytes, htype, hmagic,
    htransaction, hcount]
  dsimp only
  by_cases hforeign : type ≠ 0x0101 ∨ magic ≠ socketStunMagic ∨ transaction ≠ id
  · rw [if_pos hforeign]
    refine Or.inl ⟨fun hg => ?_, rfl⟩
    rcases hforeign with h | h | h
    · exact h (Option.some.inj (htype.symm.trans hg.type))
    · exact h (Option.some.inj (hmagic.symm.trans hg.magic))
    · exact h (Option.some.inj (htransaction.symm.trans hg.transaction))
  · rw [if_neg hforeign]
    push Not at hforeign
    obtain ⟨rfl, rfl, rfl⟩ := hforeign
    exact Or.inr ⟨⟨htype, hmagic, htransaction⟩, rfl⟩

/-- Unless a mapped address overhangs the message, the walk comes to the same without the bytes
after it. -/
theorem walk_shorter (hcount : message.length = 20+messageLength.toNat)
    (hfront : message <+: response) (hheld : response.length ≤ responseSize)
    (hno : ¬∃ offset valueLength, Overhangs message offset valueLength) (fuel offset : ℕ)
    (hreached : Reaches message offset) (outcome : StunOutcome)
    (hrun : FuelLoop.run (stunRound id response messageLength.toNat) fuel offset = some outcome) :
    ∃ fuel', FuelLoop.run (stunRound id message messageLength.toNat) fuel' offset = some outcome := by
  have hle := hfront.length_le
  -- each round with the bytes after the message is compared with the one without them
  induction fuel generalizing offset with
  | zero => exact nomatch hrun
  | succ fuel ih =>
    rcases stunRound_cases id message messageLength.toNat offset hcount.ge with ⟨hend, he⟩ |
      ⟨hin, type, valueLength, htype, hlength, hshort⟩
    · -- past the end of the message in both
      refine ⟨1, ?_⟩
      rw [FuelLoop.run_leave _ _ _ _ he]
      rcases stunRound_cases id response messageLength.toNat offset (by omega) with ⟨_, he'⟩ |
        ⟨hin, _⟩
      · rw [FuelLoop.run_leave _ _ _ _ he'] at hrun
        exact hrun
      · omega
    -- the same attribute in both, with or without the bytes after the message
    rcases stunRound_at id response messageLength.toNat offset (by omega) hin
      ((u16_longer hfront (by omega)).trans htype)
      ((u16_longer hfront (by omega)).trans hlength) with
      ⟨hover, he'⟩ | ⟨hheldHere, hkind, height, he'⟩ | ⟨hheldHere, hother, he'⟩
    · -- past the end of the datagram, so past the end of the message
      rw [FuelLoop.run_leave _ _ _ _ he'] at hrun
      rcases hshort with ⟨_, he⟩ | ⟨hinside, _⟩ | ⟨hinside, _⟩
      · exact ⟨1, by rw [FuelLoop.run_leave _ _ _ _ he, hrun]⟩
      · omega
      · omega
    · rw [FuelLoop.run_leave _ _ _ _ he'] at hrun
      rcases hshort with ⟨hover, he⟩ | ⟨hinside, _, _, he⟩ | ⟨_, hother, _⟩
      · -- the address begins in the message and ends after it
        obtain ⟨family, hfamily, ⟨_, hfailed⟩ | ⟨hgood, _⟩⟩ :=
          stunMapped_inside id response (offset+4) _ height hheldHere
        · exact ⟨1, by rw [FuelLoop.run_leave _ _ _ _ he, ← hrun, hfailed]⟩
        · refine absurd ⟨offset, valueLength, ⟨hreached, by omega, by rw [htype, hkind], hlength,
            height, hover, by omega, ?_⟩⟩ hno
          intro family' hfamily'
          rw [bytesAt_longer hfront (bytesAt_length hfamily').2, hfamily'] at hfamily
          obtain rfl := List.singleton_inj.mp (Option.some.inj hfamily)
          push Not at hgood
          exact hgood
      · exact ⟨1, by rw [FuelLoop.run_leave _ _ _ _ he, ← hrun,
          stunMapped_longer hfront id (offset+4) _ height hinside]⟩
      · exact absurd ⟨hkind, height⟩ hother
    · rw [FuelLoop.run_continue _ _ _ _ he'] at hrun
      rcases hshort with ⟨hover, he⟩ | ⟨_, hkind, height, _⟩ | ⟨_, _, he⟩
      · -- the next attribute would start after the message
        refine ⟨1, ?_⟩
        rw [FuelLoop.run_leave _ _ _ _ he]
        have hpadded := le_paddedLength valueLength.toNat
        cases fuel with
        | zero => exact nomatch hrun
        | succ fuel =>
          rcases stunRound_cases id response messageLength.toNat
            (offset+4+paddedLength valueLength.toNat) (by omega) with ⟨_, hend⟩ | ⟨hin', _⟩
          · rw [FuelLoop.run_leave _ _ _ _ hend] at hrun
            exact hrun
          · omega
      · exact absurd ⟨hkind, height⟩ hother
      · obtain ⟨fuel', hrun'⟩ := ih _ (.next offset type valueLength hreached (by omega) htype hlength
          hother) hrun
        exact ⟨fuel'+1, by rw [FuelLoop.run_continue _ _ _ _ he, hrun']⟩

/-- The walk comes to every attribute that is reached in the message. -/
theorem walk_from_reached (hcount : message.length = 20+messageLength.toNat)
    (hfront : message <+: response) (fuel offset : ℕ) (hreached : Reaches message offset)
    (hin : offset ≤ message.length) (outcome : StunOutcome)
    (hrun : FuelLoop.run (stunRound id response messageLength.toNat) fuel offset = some outcome) :
    ∃ fuel', FuelLoop.run (stunRound id response messageLength.toNat) fuel' 20 = some outcome := by
  have hle := hfront.length_le
  induction hreached generalizing fuel with
  | first => exact ⟨fuel, hrun⟩
  | next offset type valueLength _ hbegins htype hlength hother ih =>
    have hpadded := le_paddedLength valueLength.toNat
    refine ih (fuel+1) (by omega) ?_
    rcases stunRound_at id response messageLength.toNat offset (by omega) (by omega)
      ((u16_longer hfront (by omega)).trans htype)
      ((u16_longer hfront (by omega)).trans hlength) with ⟨hover, _⟩ | ⟨_, hkind, height, _⟩ | ⟨_, _, he⟩
    · omega
    · exact absurd ⟨hkind, height⟩ hother
    · rw [FuelLoop.run_continue _ _ _ _ he, hrun]

/-- What a walk over a received datagram comes to from an attribute on. -/
theorem outcome_from_reached (hcount : message.length = 20+messageLength.toNat)
    (hfront : message <+: response) (offset : ℕ) (hreached : Reaches message offset)
    (hin : offset ≤ message.length) (outcome : StunOutcome)
    (hround : stunRound id response messageLength.toNat offset = .inr outcome) (fuel : ℕ)
    (hfuel : messageLength.toNat < fuel) :
    FuelLoop.run (stunRound id response messageLength.toNat) fuel 20 = some outcome := by
  have hle := hfront.length_le
  obtain ⟨fuel', hrun'⟩ := walk_from_reached hcount hfront 1 offset hreached hin outcome
    (FuelLoop.run_leave _ _ _ _ hround)
  obtain ⟨outcome', hrun, _⟩ := walk_ends id response messageLength.toNat fuel (by omega) hfuel
  rw [hrun, FuelLoop.run_unique _ _ _ _ _ _ hrun hrun']

/-- What is received of a datagram that begins with a message. -/
theorem received_prefix {datagram : List UInt8} (hfront : message <+: datagram)
    (hfits : message.length ≤ responseSize) : message <+: datagram.take responseSize := by
  obtain ⟨more, rfl⟩ := hfront
  rw [List.take_append, List.take_of_length_le hfits]
  exact List.prefix_append ..

/-- A genuine message with nothing that overhangs it decides the outcome. -/
theorem discover_of_message (hcount : message.length = 20+messageLength.toNat)
    (hlength : socketStunU16 message 2 = some messageLength) (hgenuine : Genuine id message)
    (hfits : message.length ≤ responseSize)
    (hno : ¬∃ offset valueLength, Overhangs message offset valueLength) {datagram : List UInt8}
    (hfront : message <+: datagram) (fuel : ℕ) (hfuel : fuel > responseSize) :
    socketStunDiscover id datagram fuel =
      FuelLoop.run (stunRound id message messageLength.toNat) fuel 20 := by
  have hreceived := received_prefix hfront hfits
  have hle := hreceived.length_le
  have hheld : (datagram.take responseSize).length ≤ responseSize := List.length_take_le ..
  rcases stunResponse_header (by omega) hlength ((List.take_prefix 20 message).trans hreceived) fuel
    with ⟨hforeign, _⟩ | ⟨_, he⟩
  · exact absurd hgenuine hforeign
  rw [socketStunDiscover, he, if_neg (by omega)]
  obtain ⟨outcome, hrun, _⟩ := walk_ends id (datagram.take responseSize) messageLength.toNat fuel
    (by omega) (by omega)
  obtain ⟨fuel', hshort⟩ := walk_shorter hcount hreceived hheld hno fuel 20 .first outcome hrun
  obtain ⟨outcome', hrun', _⟩ := walk_ends id message messageLength.toNat fuel hcount.ge (by omega)
  rw [hrun, hrun', FuelLoop.run_unique _ _ _ _ _ _ hshort hrun']

/-- A message that is not a response to the request, or too long for the buffer. -/
theorem discover_failed (hcount : message.length = 20+messageLength.toNat)
    (hlength : socketStunU16 message 2 = some messageLength)
    (hbad : ¬Genuine id message ∨ responseSize < message.length) {datagram : List UInt8}
    (hfront : message <+: datagram) (fuel : ℕ) :
    socketStunDiscover id datagram fuel = some .failed := by
  have hle := hfront.length_le
  have hlarge : responseSize = 1024 := rfl
  have hheader : message.take 20 <+: datagram.take responseSize := by
    have hsame : message.take 20 = (datagram.take responseSize).take 20 := by
      obtain ⟨more, rfl⟩ := hfront
      rw [List.take_take, Nat.min_eq_left (by omega), List.take_append_of_le_length (by omega)]
    rw [hsame]
    exact List.take_prefix ..
  rcases stunResponse_header (by omega) hlength hheader fuel with ⟨_, he⟩ | ⟨hgenuine, he⟩
  · exact he
  · rcases hbad with hforeign | hlong
    · exact absurd hgenuine hforeign
    · have hreceived : (datagram.take responseSize).length = responseSize :=
        List.length_take_of_le (by omega)
      rw [socketStunDiscover, he, if_pos (by omega)]

/-- The family of an address that begins in a message and ends in the ones after it. -/
theorem family_of_ones (offset valueLength : ℕ) (hlong : 8 ≤ valueLength)
    (hfamily : ∀ family, bytesAt message (offset+5) 1 = some [family] →
      addressLength family ≠ 0 ∧ 4+addressLength family ≤ valueLength) (family : UInt8)
    (hread : bytesAt (message ++ List.replicate (offset+4+valueLength-message.length) 1)
      (offset+5) 1 = some [family]) :
    addressLength family ≠ 0 ∧ 4+addressLength family ≤ valueLength := by
  by_cases hin : offset+5+1 ≤ message.length
  · rw [bytesAt_longer (List.prefix_append ..) hin] at hread
    exact hfamily family hread
  · obtain ⟨_, hinside⟩ := bytesAt_length hread
    rw [bytesAt_eq_some hinside, List.drop_append, List.drop_eq_nil_of_le (by omega),
      List.nil_append, List.drop_replicate, List.take_replicate, Nat.min_eq_left (by omega)] at hread
    obtain rfl := List.singleton_inj.mp (Option.some.inj hread)
    exact ⟨by decide, by rw [show addressLength 1 = 4 from rfl]; omega⟩

/-- Two datagrams that begin with an overhung message and come to different ends. -/
theorem not_decides_of_overhangs (hcount : message.length = 20+messageLength.toNat)
    (hlength : socketStunU16 message 2 = some messageLength) (hgenuine : Genuine id message)
    (offset : ℕ) (valueLength : UInt16) (h : Overhangs message offset valueLength) :
    ¬Decides id message := by
  intro hdecides
  obtain ⟨hreached, hbegins, htype, hvalue, hlong, hends, hheld, hfamily⟩ := h
  -- the message alone, and with as many ones after it as the address needs
  have hlarge : responseSize = 1024 := rfl
  set ones := List.replicate (offset+4+valueLength.toNat-message.length) (1 : UInt8) with hones
  have hlonger : message <+: message ++ ones := List.prefix_append ..
  have hsize : (message ++ ones).length = offset+4+valueLength.toNat := by
    rw [List.length_append, hones, List.length_replicate]
    omega
  have hwhole : message.take responseSize = message := List.take_of_length_le (by omega)
  have hwholeLonger : (message ++ ones).take responseSize = message ++ ones :=
    List.take_of_length_le (by omega)
  have hsame := hdecides message (message ++ ones) (List.prefix_refl _) hlonger (responseSize+1)
    (Nat.lt_succ_self _)
  rw [socketStunDiscover, socketStunDiscover, hwhole, hwholeLonger] at hsame
  rcases stunResponse_header (by omega) hlength (List.take_prefix 20 message) (responseSize+1) with
    ⟨hforeign, _⟩ | ⟨_, he⟩
  · exact hforeign hgenuine
  rcases stunResponse_header (by omega) hlength ((List.take_prefix 20 message).trans hlonger)
    (responseSize+1) with ⟨hforeign, _⟩ | ⟨_, he'⟩
  · exact hforeign hgenuine
  rw [he, he', if_neg (by omega), if_neg (by omega)] at hsame
  -- the message alone ends before the address does
  have hround : stunRound id message messageLength.toNat offset = .inr .failed := by
    rcases stunRound_at id message messageLength.toNat offset hcount.ge (by omega) htype hvalue with
      ⟨_, he⟩ | ⟨hin, _⟩ | ⟨hin, _⟩
    · exact he
    · omega
    · omega
  -- with the bytes after the message the address is complete, and its family is a known one
  have hroundLonger : ∃ address,
      stunRound id (message ++ ones) messageLength.toNat offset = .inr (.mapped address) := by
    rcases stunRound_at id (message ++ ones) messageLength.toNat offset (by omega) (by omega)
      ((u16_longer hlonger (by omega)).trans htype)
      ((u16_longer hlonger (by omega)).trans hvalue) with ⟨hover, _⟩ | ⟨hin, _, _, he⟩ | ⟨_, hother, _⟩
    · omega
    · obtain ⟨family, hread, ⟨hbad, _⟩ | ⟨_, address, hmapped⟩⟩ :=
        stunMapped_inside id (message ++ ones) (offset+4) _ hlong hin
      · have hgood := family_of_ones offset valueLength.toNat hlong hfamily family hread
        omega
      · exact ⟨address, by rw [he, hmapped]⟩
    · exact absurd ⟨rfl, hlong⟩ hother
  obtain ⟨address, hroundLonger⟩ := hroundLonger
  rw [outcome_from_reached hcount (List.prefix_refl _) offset hreached (by omega) _ hround _
      (by omega),
    outcome_from_reached hcount hlonger offset hreached (by omega) _ hroundLonger _ (by omega)]
    at hsame
  exact nomatch hsame

/-- The bytes after a message have no say in the outcome exactly when no mapped address begins
in the message and ends after it, in a response to the request. -/
theorem decides_iff_not_overhangs (id message : List UInt8) (messageLength : UInt16)
    (hlength : socketStunU16 message 2 = some messageLength)
    (hcount : message.length = 20+messageLength.toNat) :
    Decides id message ↔
      ¬(Genuine id message ∧ ∃ offset valueLength, Overhangs message offset valueLength) := by
  constructor
  · rintro hdecides ⟨hgenuine, offset, valueLength, h⟩
    exact not_decides_of_overhangs hcount hlength hgenuine offset valueLength h hdecides
  · intro hno datagram datagram' hfront hfront' fuel hfuel
    by_cases hgenuine : Genuine id message
    · have hno' := fun h => hno ⟨hgenuine, h⟩
      by_cases hfits : message.length ≤ responseSize
      · rw [discover_of_message hcount hlength hgenuine hfits hno' hfront fuel hfuel,
          discover_of_message hcount hlength hgenuine hfits hno' hfront' fuel hfuel]
      · have hlong : ¬Genuine id message ∨ responseSize < message.length :=
          Or.inr (Nat.not_le.mp hfits)
        rw [discover_failed hcount hlength hlong hfront fuel,
          discover_failed hcount hlength hlong hfront' fuel]
    · rw [discover_failed hcount hlength (Or.inl hgenuine) hfront fuel,
        discover_failed hcount hlength (Or.inl hgenuine) hfront' fuel]

/-- The header of a mapped address at the end of a message. -/
theorem decides_iff_not_overhangs_cut :
    let id : List UInt8 := [1, 2, 3, 4, 5, 6, 7, 8, 9, 10, 11, 12]
    ¬Decides id (stunMessage id [0, 32, 0, 8]) := by
  intro id hdecides
  have hgenuine : Genuine id (stunMessage id [0, 32, 0, 8]) := ⟨by decide, by decide, by decide⟩
  have hoverhangs : Overhangs (stunMessage id [0, 32, 0, 8]) 20 8 :=
    ⟨.first, by decide, by decide, by decide, by decide, by decide, by decide, fun _ h => nomatch h⟩
  exact (decides_iff_not_overhangs id (stunMessage id [0, 32, 0, 8]) 4 (by decide) (by decide)).mp
    hdecides ⟨hgenuine, 20, 8, hoverhangs⟩

/-- The header of a mapped address with nothing after it: the address is read from the bytes that
follow the message. -/
theorem bytes_after_message_count :
    ¬∀ (id message : List UInt8) (messageLength : UInt16),
      socketStunU16 message 2 = some messageLength → message.length = 20+messageLength.toNat →
        Decides id message := by
  intro h
  have hdecides := h [1, 2, 3, 4, 5, 6, 7, 8, 9, 10, 11, 12]
    (stunMessage [1, 2, 3, 4, 5, 6, 7, 8, 9, 10, 11, 12] [0, 32, 0, 8]) 4 (by decide) (by decide)
  have hsame := hdecides _
    (stunMessage [1, 2, 3, 4, 5, 6, 7, 8, 9, 10, 11, 12] [0, 32, 0, 8] ++ [0, 1, 0, 0, 0, 0, 0, 0])
    (List.prefix_refl _) (List.prefix_append ..) 1025 (by decide)
  exact absurd hsame (by decide)

end Prefixes

end LibAtrinik.Stun

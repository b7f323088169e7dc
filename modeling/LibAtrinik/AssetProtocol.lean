import LibAtrinik.PacketRoundTrip

namespace LibAtrinik.Asset

open Packet

def maxBuf : ℕ := 256
def assetDigestSize : ℕ := 32
def assetMaxSize : UInt32 := 128*1024*1024

def assetStatusOk : UInt8 := 0
def assetStatusNotFound : UInt8 := 1
def assetStatusMetadata : UInt8 := 3
def assetStatusMetadataNotFound : UInt8 := 4

def assetRequestMetadata : UInt8 := 1

/-- A SHA-256 digest. -/
abbrev AssetDigest := { bytes : List UInt8 // bytes.length = assetDigestSize }

def emptyDigest : AssetDigest := ⟨List.replicate assetDigestSize 0, List.length_replicate⟩

/-- A view that is copied into a digest field of zeros. -/
def AssetDigest.ofView (view : List UInt8) : AssetDigest :=
  ⟨(view ++ emptyDigest.1).take assetDigestSize, by
    apply List.length_take_of_le
    rw [List.length_append, emptyDigest.2]
    exact Nat.le_add_left _ _⟩

/-- `socket_asset_request_t`. The path is what stands before the terminating zero. -/
structure SocketAssetRequest where
  path : List UInt8
  cachedSize : UInt32
  cachedDigest : AssetDigest
  flags : UInt8
deriving DecidableEq

/-- `socket_asset_response_t`. -/
structure SocketAssetResponse where
  status : UInt8
  totalSize : UInt32
  digest : AssetDigest
deriving DecidableEq

def socketAssetRequestAppend (packet : PacketStruct) (path : List UInt8) (cachedSize : UInt32)
    (cachedDigest : AssetDigest) (flags : UInt8) : PacketStruct :=
  let packet := packetWriterWriteCstring packet path
  let packet := packetWriterWriteUint32 packet cachedSize
  let packet := packetWriterWriteBytes packet cachedDigest.1
  packetWriterWriteUint8 packet flags

/-- The result and the request of the caller afterwards; `none` is the null pointer. -/
def socketAssetRequestParse (data : List UInt8) (pos : ℕ) (request : Option SocketAssetRequest) :
    Bool × Option SocketAssetRequest :=
  if request = none then (false, request)
  else
    let reader := packetReaderInitAt data pos
    let path := packetReaderReadString reader [] maxBuf
    let cachedSize := packetReaderReadUint32 path.2
    let digest := packetReaderReadView cachedSize.2 assetDigestSize
    let flags := packetReaderReadUint8 digest.2
    if (packetReaderFinish flags.2).1 = false ∨ path.1.2 = [] then (false, request)
    else
      let parsed : SocketAssetRequest :=
        { path := path.1.2, cachedSize := cachedSize.1
          cachedDigest := AssetDigest.ofView digest.1, flags := flags.1 }
      if parsed.flags &&& ~~~assetRequestMetadata ≠ 0 ∨
          (parsed.flags &&& assetRequestMetadata ≠ 0 ∧
            (parsed.cachedSize ≠ 0 ∨ parsed.cachedDigest ≠ emptyDigest)) then
        (false, request)
      else (true, some parsed)

/-- A null pointer for the digest stands for zeros. -/
def socketAssetResponseAppendStatus (packet : PacketStruct) (status : UInt8) (totalSize : UInt32)
    (digest : Option AssetDigest) : PacketStruct :=
  let packet := packetWriterWriteUint8 packet status
  let packet := packetWriterWriteUint32 packet totalSize
  packetWriterWriteBytes packet (digest.getD emptyDigest).1

def socketAssetResponseAppendMetadata (packet : PacketStruct) (totalSize : UInt32)
    (digest : AssetDigest) : PacketStruct :=
  socketAssetResponseAppendStatus packet assetStatusMetadata totalSize (some digest)

def socketAssetResponseAppendOk (packet : PacketStruct) (totalSize : UInt32)
    (digest : AssetDigest) : PacketStruct :=
  socketAssetResponseAppendStatus packet assetStatusOk totalSize (some digest)

def socketAssetResponseParse (data : List UInt8) (pos : ℕ)
    (response : Option SocketAssetResponse) : Bool × Option SocketAssetResponse :=
  if response = none then (false, response)
  else
    let reader := packetReaderInitAt data pos
    let status := packetReaderReadUint8 reader
    let totalSize := packetReaderReadUint32 status.2
    let digest := packetReaderReadView totalSize.2 assetDigestSize
    if (packetReaderFinish digest.2).1 = false ∨ status.1 > assetStatusMetadataNotFound ∨
        totalSize.1 > assetMaxSize ∨
        ((status.1 = assetStatusOk ∨ status.1 = assetStatusMetadata) ∧
          digest.1.length ≠ assetDigestSize) ∨
        ((status.1 = assetStatusNotFound ∨ status.1 = assetStatusMetadataNotFound) ∧
          (totalSize.1 ≠ 0 ∨ digest.1 ≠ emptyDigest.1)) then
      (false, response)
    else
      (true, some { status := status.1, totalSize := totalSize.1
                    digest := AssetDigest.ofView digest.1 })

/-- The requests that are well formed. -/
structure SocketAssetRequest.Valid (request : SocketAssetRequest) : Prop where
  nonempty : request.path ≠ []
  nulFree : 0 ∉ request.path
  short : request.path.length < maxBuf
  flags : request.flags = 0 ∨ (request.flags = assetRequestMetadata ∧ request.cachedSize = 0 ∧
    request.cachedDigest = emptyDigest)

/-- The responses that are well formed. -/
structure SocketAssetResponse.Valid (response : SocketAssetResponse) : Prop where
  status : response.status ≤ assetStatusMetadataNotFound
  totalSize : response.totalSize ≤ assetMaxSize
  notFound : response.status = assetStatusNotFound ∨
    response.status = assetStatusMetadataNotFound →
    response.totalSize = 0 ∧ response.digest = emptyDigest

def requestTypes : List FieldType := [.cstring (maxBuf-1), .uint32, .bytes assetDigestSize, .uint8]
def responseTypes : List FieldType := [.uint8, .uint32, .bytes assetDigestSize]

def SocketAssetRequest.fields (request : SocketAssetRequest) : List Field :=
  [.cstring request.path, .uint32 request.cachedSize, .bytes request.cachedDigest.1,
    .uint8 request.flags]

def SocketAssetResponse.fields (response : SocketAssetResponse) : List Field :=
  [.uint8 response.status, .uint32 response.totalSize, .bytes response.digest.1]

theorem request_append (packet : PacketStruct) (request : SocketAssetRequest) :
    socketAssetRequestAppend packet request.path request.cachedSize request.cachedDigest
      request.flags = writeAll packet request.fields := rfl

theorem response_append (packet : PacketStruct) (response : SocketAssetResponse) :
    socketAssetResponseAppendStatus packet response.status response.totalSize
      (some response.digest) = writeAll packet response.fields := rfl

theorem AssetDigest.ofView_val (digest : AssetDigest) : AssetDigest.ofView digest.1 = digest := by
  apply Subtype.ext
  exact List.take_left' digest.2

theorem request_typed (request : SocketAssetRequest) (h : request.Valid) :
    List.Forall₂ Field.HasType request.fields requestTypes := by
  have hshort := h.short
  have hdigest := Field.HasType.bytes request.cachedDigest.1
  rw [request.cachedDigest.2] at hdigest
  apply List.Forall₂.cons (.cstring _ _ h.nulFree (by omega))
  exact .cons (.uint32 _) (.cons hdigest (.cons (.uint8 _) .nil))

theorem response_typed (response : SocketAssetResponse) :
    List.Forall₂ Field.HasType response.fields responseTypes := by
  have hdigest := Field.HasType.bytes response.digest.1
  rw [response.digest.2] at hdigest
  exact .cons (.uint8 _) (.cons (.uint32 _) (.cons hdigest .nil))

/-- The fields of a message that has the types of a request. -/
theorem exists_request (fields : List Field)
    (h : List.Forall₂ Field.HasType fields requestTypes) :
    ∃ request : SocketAssetRequest, fields = request.fields ∧ 0 ∉ request.path ∧
      request.path.length < maxBuf := by
  cases h with
  | cons hpath h =>
  cases h with
  | cons hsize h =>
  cases h with
  | cons hdigest h =>
  cases h with
  | cons hflags h =>
  cases h
  cases hpath with
  | cstring path _ hzero hlen =>
  cases hsize with
  | uint32 cachedSize =>
  cases hflags with
  | uint8 flags =>
  generalize hn : assetDigestSize = n at hdigest
  cases hdigest with
  | bytes digest =>
    exact ⟨⟨path, cachedSize, ⟨digest, hn.symm⟩, flags⟩, rfl, hzero, Nat.lt_of_le_pred (by decide) hlen⟩

theorem exists_response (fields : List Field)
    (h : List.Forall₂ Field.HasType fields responseTypes) :
    ∃ response : SocketAssetResponse, fields = response.fields := by
  cases h with
  | cons hstatus h =>
  cases h with
  | cons hsize h =>
  cases h with
  | cons hdigest h =>
  cases h
  cases hstatus with
  | uint8 status =>
  cases hsize with
  | uint32 totalSize =>
  generalize hn : assetDigestSize = n at hdigest
  cases hdigest with
  | bytes digest => exact ⟨⟨status, totalSize, ⟨digest, hn.symm⟩⟩, rfl⟩

/-- The reader after the calls that `socket_asset_request_parse` makes, and what they returned. -/
def requestRead (data : List UInt8) (pos : ℕ) : List Field × PacketReader :=
  readAll requestTypes (packetReaderInitAt data pos)

def responseRead (data : List UInt8) (pos : ℕ) : List Field × PacketReader :=
  readAll responseTypes (packetReaderInitAt data pos)

theorem flags_unknown (flags : UInt8) :
    flags &&& ~~~assetRequestMetadata = 0 ↔ flags = 0 ∨ flags = assetRequestMetadata := by
  have hall : ∀ n : Fin 256, UInt8.ofNat n.val &&& ~~~assetRequestMetadata = 0 ↔
      UInt8.ofNat n.val = 0 ∨ UInt8.ofNat n.val = assetRequestMetadata := by decide +kernel
  have hflags := hall ⟨flags.toNat, flags.toNat_lt⟩
  rwa [UInt8.ofNat_toNat] at hflags

/-- What the tests on the fields of a request come to. -/
theorem request_checks (request : SocketAssetRequest) :
    ¬(request.flags &&& ~~~assetRequestMetadata ≠ 0 ∨
        (request.flags &&& assetRequestMetadata ≠ 0 ∧
          (request.cachedSize ≠ 0 ∨ request.cachedDigest ≠ emptyDigest))) ↔
      request.flags = 0 ∨ (request.flags = assetRequestMetadata ∧ request.cachedSize = 0 ∧
        request.cachedDigest = emptyDigest) := by
  rw [not_or, not_not, flags_unknown]
  constructor
  · intro h
    rcases h.1 with hzero | hmeta
    · exact Or.inl hzero
    · right
      have hbit : request.flags &&& assetRequestMetadata ≠ 0 := by
        rw [hmeta]
        decide
      have hrest := h.2
      rw [not_and, not_or, not_not, not_not] at hrest
      exact ⟨hmeta, hrest hbit⟩
  · intro h
    rcases h with hzero | ⟨hmeta, hsize, hdigest⟩
    · refine ⟨Or.inl hzero, fun hbad => hbad.1 ?_⟩
      rw [hzero]
      decide
    · refine ⟨Or.inr hmeta, fun hbad => ?_⟩
      rcases hbad.2 with hne | hne
      · exact hne hsize
      · exact hne hdigest

/-- The calls one by one: the string is read through its view. -/
theorem socketAssetRequestParse_eq (data : List UInt8) (pos : ℕ) (old : SocketAssetRequest) :
    ∃ path cachedSize digest flags reader,
      requestRead data pos =
        ([.cstring path, .uint32 cachedSize, .bytes digest, .uint8 flags], reader) ∧
      socketAssetRequestParse data pos (some old) =
        if (packetReaderFinish reader).1 = false ∨ path = [] then (false, some old)
        else if flags &&& ~~~assetRequestMetadata ≠ 0 ∨ (flags &&& assetRequestMetadata ≠ 0 ∧
            (cachedSize ≠ 0 ∨ AssetDigest.ofView digest ≠ emptyDigest)) then
          (false, some old)
        else (true, some ⟨path, cachedSize, AssetDigest.ofView digest, flags⟩) := by
  have hview := packetReaderReadString_view (packetReaderInitAt data pos) maxBuf (by decide)
  refine ⟨_, _, _, _, _, rfl, ?_⟩
  unfold socketAssetRequestParse
  rw [if_neg (Option.some_ne_none old)]
  dsimp only
  rw [hview.1, hview.2]
  rfl

theorem socketAssetResponseParse_eq (data : List UInt8) (pos : ℕ) (old : SocketAssetResponse) :
    ∃ status totalSize digest reader,
      responseRead data pos =
        ([.uint8 status, .uint32 totalSize, .bytes digest], reader) ∧
      socketAssetResponseParse data pos (some old) =
        if (packetReaderFinish reader).1 = false ∨ status > assetStatusMetadataNotFound ∨
            totalSize > assetMaxSize ∨
            ((status = assetStatusOk ∨ status = assetStatusMetadata) ∧
              digest.length ≠ assetDigestSize) ∨
            ((status = assetStatusNotFound ∨ status = assetStatusMetadataNotFound) ∧
              (totalSize ≠ 0 ∨ digest ≠ emptyDigest.1)) then
          (false, some old)
        else (true, some ⟨status, totalSize, AssetDigest.ofView digest⟩) := by
  refine ⟨_, _, _, _, rfl, ?_⟩
  unfold socketAssetResponseParse
  rw [if_neg (Option.some_ne_none old)]
  rfl

theorem request_of_fields (request : SocketAssetRequest) (path digest : List UInt8)
    (cachedSize : UInt32) (flags : UInt8)
    (h : [.cstring path, .uint32 cachedSize, .bytes digest, .uint8 flags] = request.fields) :
    path = request.path ∧
      (⟨path, cachedSize, AssetDigest.ofView digest, flags⟩ : SocketAssetRequest) = request := by
  simp only [SocketAssetRequest.fields, List.cons.injEq, Field.cstring.injEq, Field.uint32.injEq,
    Field.bytes.injEq, Field.uint8.injEq, and_true] at h
  rw [h.1, h.2.1, h.2.2.1, h.2.2.2, AssetDigest.ofView_val]
  exact ⟨rfl, rfl⟩

theorem response_of_fields (response : SocketAssetResponse) (status : UInt8) (totalSize : UInt32)
    (digest : List UInt8)
    (h : [.uint8 status, .uint32 totalSize, .bytes digest] = response.fields) :
    digest = response.digest.1 ∧
      (⟨status, totalSize, AssetDigest.ofView digest⟩ : SocketAssetResponse) = response := by
  simp only [SocketAssetResponse.fields, List.cons.injEq, Field.uint32.injEq, Field.bytes.injEq,
    Field.uint8.injEq, and_true] at h
  rw [h.1, h.2.1, h.2.2, AssetDigest.ofView_val]
  exact ⟨rfl, rfl⟩

/-- A request is accepted exactly if the rest of the buffer is the encoding of a valid one. -/
theorem socketAssetRequestParse_iff (data : List UInt8) (pos : ℕ) (hlen : data.length ≤ sizeMax)
    (old request : SocketAssetRequest) :
    socketAssetRequestParse data pos (some old) = (true, some request) ↔
      pos ≤ data.length ∧ request.Valid ∧ data.drop pos = encodeAll request.fields := by
  obtain ⟨path, cachedSize, digest, flags, reader, hread, hparse⟩ :=
    socketAssetRequestParse_eq data pos old
  have hfinish := readAll_finish_at requestTypes data pos hlen
  change ∀ fields, (requestRead data pos).1 = fields ∧
    (packetReaderFinish (requestRead data pos).2).1 = true ↔ _ at hfinish
  rw [hread] at hfinish
  rw [hparse]
  constructor
  · intro h
    split_ifs at h with hunread hflags
    · exact absurd (congrArg Prod.fst h) Bool.false_ne_true
    · exact absurd (congrArg Prod.fst h) Bool.false_ne_true
    rw [not_or, Bool.not_eq_false] at hunread
    have hall := (hfinish _).mp ⟨rfl, hunread.1⟩
    obtain ⟨request', hfields, hzero, hshort⟩ := exists_request _ hall.2.1
    have hparsed := request_of_fields request' path digest cachedSize flags hfields
    have hsame : request' = request :=
      hparsed.2.symm.trans (Option.some.inj (congrArg Prod.snd h))
    have hchecked := (request_checks ⟨path, cachedSize, AssetDigest.ofView digest, flags⟩).mp hflags
    rw [hparsed.2, hsame] at hchecked
    rw [hsame] at hfields hzero hshort hparsed
    rw [hfields] at hall
    exact ⟨hall.1, ⟨hparsed.1 ▸ hunread.2, hzero, hshort, hchecked⟩, hall.2.2⟩
  · intro h
    have hall := (hfinish request.fields).mpr ⟨h.1, request_typed request h.2.1, h.2.2⟩
    have hparsed := request_of_fields request path digest cachedSize flags hall.1
    have hchecked := (request_checks request).mpr h.2.1.flags
    rw [← hparsed.2] at hchecked
    rw [if_neg, if_neg hchecked, hparsed.2]
    rw [not_or, Bool.not_eq_false]
    exact ⟨hall.2, hparsed.1 ▸ h.2.1.nonempty⟩

/-- A response is accepted exactly if the rest of the buffer is the encoding of a valid one. -/
theorem socketAssetResponseParse_iff (data : List UInt8) (pos : ℕ) (hlen : data.length ≤ sizeMax)
    (old response : SocketAssetResponse) :
    socketAssetResponseParse data pos (some old) = (true, some response) ↔
      pos ≤ data.length ∧ response.Valid ∧ data.drop pos = encodeAll response.fields := by
  obtain ⟨status, totalSize, digest, reader, hread, hparse⟩ :=
    socketAssetResponseParse_eq data pos old
  have hfinish := readAll_finish_at responseTypes data pos hlen
  change ∀ fields, (responseRead data pos).1 = fields ∧
    (packetReaderFinish (responseRead data pos).2).1 = true ↔ _ at hfinish
  rw [hread] at hfinish
  rw [hparse]
  constructor
  · intro h
    split_ifs at h with hbad
    · exact absurd (congrArg Prod.fst h) Bool.false_ne_true
    simp only [not_or, Bool.not_eq_false, not_and, UInt8.not_lt, UInt32.not_lt,
      not_not, gt_iff_lt] at hbad
    have hall := (hfinish _).mp ⟨rfl, hbad.1⟩
    obtain ⟨response', hfields⟩ := exists_response _ hall.2.1
    have hparsed := response_of_fields response' status totalSize digest hfields
    have hsame : response' = response :=
      hparsed.2.symm.trans (Option.some.inj (congrArg Prod.snd h))
    rw [hsame] at hfields hparsed
    have hstatus : status = response.status := congrArg SocketAssetResponse.status hparsed.2
    have hsize : totalSize = response.totalSize :=
      congrArg SocketAssetResponse.totalSize hparsed.2
    rw [hstatus, hsize, hparsed.1] at hbad
    rw [hfields] at hall
    refine ⟨hall.1, ⟨hbad.2.1, hbad.2.2.1, fun hnone => ?_⟩, hall.2.2⟩
    have hzero := hbad.2.2.2.2 hnone
    exact ⟨hzero.1, Subtype.ext hzero.2⟩
  · intro h
    have hall := (hfinish response.fields).mpr ⟨h.1, response_typed response, h.2.2⟩
    have hparsed := response_of_fields response status totalSize digest hall.1
    have hstatus : status = response.status := congrArg SocketAssetResponse.status hparsed.2
    have hsize : totalSize = response.totalSize :=
      congrArg SocketAssetResponse.totalSize hparsed.2
    rw [if_neg, hparsed.2]
    simp only [not_or, Bool.not_eq_false, not_and, UInt8.not_lt, UInt32.not_lt,
      not_not, gt_iff_lt]
    rw [hstatus, hsize, hparsed.1]
    have hvalid := h.2.1
    refine ⟨hall.2, hvalid.status, hvalid.totalSize, fun _ => response.digest.2, fun hnone => ?_⟩
    exact ⟨(hvalid.notFound hnone).1, congrArg Subtype.val (hvalid.notFound hnone).2⟩

/-- A parser that fails leaves the structure of its caller alone. -/
theorem socketAssetRequestParse_false (data : List UInt8) (pos : ℕ)
    (request : Option SocketAssetRequest)
    (h : (socketAssetRequestParse data pos request).1 = false) :
    (socketAssetRequestParse data pos request).2 = request := by
  cases request with
  | none => rfl
  | some old =>
    obtain ⟨_, _, _, _, _, _, hparse⟩ := socketAssetRequestParse_eq data pos old
    rw [hparse] at h ⊢
    split_ifs at h ⊢
    · rfl
    · rfl

theorem socketAssetResponseParse_false (data : List UInt8) (pos : ℕ)
    (response : Option SocketAssetResponse)
    (h : (socketAssetResponseParse data pos response).1 = false) :
    (socketAssetResponseParse data pos response).2 = response := by
  cases response with
  | none => rfl
  | some old =>
    obtain ⟨_, _, _, _, _, hparse⟩ := socketAssetResponseParse_eq data pos old
    rw [hparse] at h ⊢
    split_ifs at h ⊢
    · rfl

theorem length_encode_request (request : SocketAssetRequest) (h : request.Valid) :
    2*(encodeAll request.fields).length ≤ packetPayloadMax := by
  have hshort := h.short
  have hdigest := request.cachedDigest.2
  have hsize := BigEndian.length_bytes 4 request.cachedSize.toNat
  have hlength : (encodeAll request.fields).length = request.path.length+1+4+assetDigestSize+1 := by
    simp [encodeAll, SocketAssetRequest.fields, Field.encode, hsize, hdigest]
    ring
  have hmax : 2*(maxBuf+1+4+assetDigestSize+1) ≤ packetPayloadMax := by decide
  omega

theorem length_encode_response (response : SocketAssetResponse) :
    2*(encodeAll response.fields).length ≤ packetPayloadMax := by
  have hdigest := response.digest.2
  have hsize := BigEndian.length_bytes 4 response.totalSize.toNat
  have hlength : (encodeAll response.fields).length = 1+4+assetDigestSize := by
    simp [encodeAll, SocketAssetResponse.fields, Field.encode, hsize, hdigest]
    ring
  have hmax : 2*(1+4+assetDigestSize) ≤ packetPayloadMax := by decide
  omega

/-- What goes into a new packet for a valid request, and for a response. -/
theorem request_written (request : SocketAssetRequest) (h : request.Valid) (type : UInt8)
    (size expand : ℕ) :
    (socketAssetRequestAppend (packetNew type size expand) request.path request.cachedSize
      request.cachedDigest request.flags).data = encodeAll request.fields := by
  rw [request_append]
  exact (writeAll_packetNew request.fields requestTypes (request_typed request h) type size expand
    (length_encode_request request h)).2

theorem response_written (response : SocketAssetResponse) (type : UInt8) (size expand : ℕ) :
    (socketAssetResponseAppendStatus (packetNew type size expand) response.status
      response.totalSize (some response.digest)).data = encodeAll response.fields := by
  rw [response_append]
  exact (writeAll_packetNew response.fields responseTypes (response_typed response) type size
    expand (length_encode_response response)).2

/-- A response that is written into a new packet is parsed back. -/
theorem response_parsed (response : SocketAssetResponse) (h : response.Valid) (type : UInt8)
    (size expand : ℕ) (old : SocketAssetResponse) :
    socketAssetResponseParse (socketAssetResponseAppendStatus (packetNew type size expand)
      response.status response.totalSize (some response.digest)).data 0 (some old) =
        (true, some response) := by
  have hmax : packetPayloadMax ≤ sizeMax := by decide
  have hlength := length_encode_response response
  rw [response_written response type size expand]
  apply (socketAssetResponseParse_iff _ 0 (by omega) old _).mpr
  exact ⟨Nat.zero_le _, h, List.drop_zero⟩

/-- Assets of every size that is allowed can be answered with, and with their metadata. -/
theorem response_ok_parsed (totalSize : UInt32) (h : totalSize ≤ assetMaxSize)
    (digest : AssetDigest) (type : UInt8) (size expand : ℕ) (old : SocketAssetResponse) :
    socketAssetResponseParse (socketAssetResponseAppendOk (packetNew type size expand) totalSize
      digest).data 0 (some old) = (true, some ⟨assetStatusOk, totalSize, digest⟩) ∧
    socketAssetResponseParse (socketAssetResponseAppendMetadata (packetNew type size expand)
      totalSize digest).data 0 (some old) =
        (true, some ⟨assetStatusMetadata, totalSize, digest⟩) := by
  have hvalid (status : UInt8) (hstatus : status ≤ assetStatusMetadataNotFound)
      (hfound : ¬ (status = assetStatusNotFound ∨ status = assetStatusMetadataNotFound)) :
      SocketAssetResponse.Valid ⟨status, totalSize, digest⟩ :=
    ⟨hstatus, h, fun hnone => absurd hnone hfound⟩
  exact ⟨response_parsed _ (hvalid assetStatusOk (by decide) (by decide)) type size expand old,
    response_parsed _ (hvalid assetStatusMetadata (by decide) (by decide)) type size expand old⟩

/-- The asset codec. What is written into a new packet is parsed back; what is parsed from a buffer
is written back as it stood there; and a parser that fails changes nothing. -/
theorem asset_codec (type : UInt8) (size expand : ℕ) :
    (∀ path : List UInt8, path ≠ [] → 0 ∉ path → path.length ≤ 255 →
      ∀ (cachedSize : UInt32) (cachedDigest : AssetDigest) (flags : UInt8),
      flags = 0 ∨ (flags = assetRequestMetadata ∧ cachedSize = 0 ∧ cachedDigest = emptyDigest) →
      ∀ old : SocketAssetRequest,
      socketAssetRequestParse (socketAssetRequestAppend (packetNew type size expand) path
          cachedSize cachedDigest flags).data 0 (some old) =
        (true, some ⟨path, cachedSize, cachedDigest, flags⟩)) ∧
    (∀ (status : UInt8) (totalSize : UInt32) (digest : Option AssetDigest),
      status ≤ assetStatusMetadataNotFound → totalSize ≤ assetMaxSize →
      (status = assetStatusNotFound ∨ status = assetStatusMetadataNotFound →
        totalSize = 0 ∧ digest.getD emptyDigest = emptyDigest) →
      ∀ old : SocketAssetResponse,
      socketAssetResponseParse (socketAssetResponseAppendStatus (packetNew type size expand) status
          totalSize digest).data 0 (some old) =
        (true, some ⟨status, totalSize, digest.getD emptyDigest⟩)) ∧
    (∀ (data : List UInt8) (pos : ℕ), data.length ≤ sizeMax →
      (∀ old request : SocketAssetRequest,
        socketAssetRequestParse data pos (some old) = (true, some request) →
        (socketAssetRequestAppend (packetNew type size expand) request.path request.cachedSize
          request.cachedDigest request.flags).data = data.drop pos) ∧
      (∀ old response : SocketAssetResponse,
        socketAssetResponseParse data pos (some old) = (true, some response) →
        (socketAssetResponseAppendStatus (packetNew type size expand) response.status
          response.totalSize (some response.digest)).data = data.drop pos)) ∧
    (∀ (data : List UInt8) (pos : ℕ),
      (∀ request, (socketAssetRequestParse data pos request).1 = false →
        (socketAssetRequestParse data pos request).2 = request) ∧
      (∀ response, (socketAssetResponseParse data pos response).1 = false →
        (socketAssetResponseParse data pos response).2 = response)) := by
  have hmax : packetPayloadMax ≤ sizeMax := by decide
  refine ⟨?_, ?_, ?_, ?_⟩
  · intro path hne hzero hlen cachedSize cachedDigest flags hflags old
    have hvalid : SocketAssetRequest.Valid ⟨path, cachedSize, cachedDigest, flags⟩ :=
      ⟨hne, hzero, Nat.lt_succ_of_le hlen, hflags⟩
    have hwritten := request_written _ hvalid type size expand
    have hlength := length_encode_request _ hvalid
    rw [hwritten]
    apply (socketAssetRequestParse_iff _ 0 (by omega) old _).mpr
    exact ⟨Nat.zero_le _, hvalid, List.drop_zero⟩
  · intro status totalSize digest hstatus hsize hnone old
    have happend : socketAssetResponseAppendStatus (packetNew type size expand) status totalSize
        digest = socketAssetResponseAppendStatus (packetNew type size expand) status totalSize
          (some (digest.getD emptyDigest)) := rfl
    rw [happend]
    exact response_parsed ⟨status, totalSize, digest.getD emptyDigest⟩ ⟨hstatus, hsize, hnone⟩
      type size expand old
  · intro data pos hlen
    constructor
    · intro old request h
      have hparsed := (socketAssetRequestParse_iff data pos hlen old request).mp h
      rw [request_written request hparsed.2.1, hparsed.2.2]
    · intro old response h
      have hparsed := (socketAssetResponseParse_iff data pos hlen old response).mp h
      rw [response_written response, hparsed.2.2]
  · intro data pos
    exact ⟨fun request => socketAssetRequestParse_false data pos request,
      fun response => socketAssetResponseParse_false data pos response⟩

/-- A request for the metadata of `a`, in a packet that starts with three bytes, and the answer that
there is no such asset. -/
theorem asset_codec_metadata :
    socketAssetRequestParse (socketAssetRequestAppend (packetNew 0 3 0) [97] 0 emptyDigest 1).data
        0 (some ⟨[], 7, emptyDigest, 0⟩) = (true, some ⟨[97], 0, emptyDigest, 1⟩) ∧
    socketAssetResponseParse (socketAssetResponseAppendStatus (packetNew 0 3 0) 4 0 none).data
        0 (some ⟨0, 7, emptyDigest⟩) = (true, some ⟨4, 0, emptyDigest⟩) := by
  have h := asset_codec 0 3 0
  constructor
  · exact h.1 [97] (by decide) (by decide) (by decide) 0 emptyDigest 1
      (Or.inr ⟨rfl, rfl, rfl⟩) _
  · exact h.2.1 4 0 none (by decide) (by decide) (fun _ => ⟨rfl, rfl⟩) _

end LibAtrinik.Asset

import LibAtrinik.PacketReader

namespace LibAtrinik.Packet

/-- `packet_struct`. The data are the bytes written so far, and `len` is their number; `size` is
the number of bytes allocated. -/
structure PacketStruct where
  data : List UInt8 := []
  size : ℕ := 0
  expand : ℕ := 0
  limit : ℕ := packetPayloadMax
  error : PacketError := .none
  ndelay : UInt8 := 0
  type : UInt8 := 0
deriving DecidableEq, Repr, Inhabited

def PacketStruct.len (packet : PacketStruct) : ℕ := packet.data.length

def packetNew (type : UInt8) (size expand : ℕ) : PacketStruct :=
  { type := type, size := size, expand := expand }

def packetWriterSetLimit (writer : PacketStruct) (limit : ℕ) : PacketStruct :=
  if writer.len > limit then { writer with error := .limitExceeded }
  else { writer with limit := limit }

def packetWriterFinish (writer : PacketStruct) : Bool := writer.error = .none

/-- Room for `size` more bytes. Allocation does not fail: `xrealloc` ends the program then. -/
def packetEnsure (packet : PacketStruct) (size : ℕ) : Bool × PacketStruct :=
  if packet.error ≠ .none then (false, packet)
  else if packet.len > packet.limit ∨ size > packet.limit-packet.len then
    (false, { packet with error := .limitExceeded })
  else if packet.len ≤ packet.size ∧ size ≤ packet.size-packet.len then (true, packet)
  else
    let growth := max packet.expand size
    let growth :=
      if packet.size > packet.limit ∨ growth > packet.limit-packet.size then
        packet.limit-min packet.size packet.limit
      else growth
    if growth < size ∨ packet.size > sizeMax-growth then
      (false, { packet with error := .sizeOverflow })
    else (true, { packet with size := packet.size+growth })

/-- Bytes for which room has been made first. -/
def packetAppend (packet : PacketStruct) (bytes : List UInt8) : PacketStruct :=
  let ensured := packetEnsure packet bytes.length
  if ensured.1 then { ensured.2 with data := ensured.2.data ++ bytes } else ensured.2

-- An unsigned number is shifted logically, a signed one arithmetically.

def packetWriterWriteUint8 (packet : PacketStruct) (data : UInt8) : PacketStruct :=
  packetAppend packet [data]

def packetWriterWriteInt8 (packet : PacketStruct) (data : Int8) : PacketStruct :=
  packetAppend packet [data.toUInt8]

def packetWriterWriteUint16 (packet : PacketStruct) (data : UInt16) : PacketStruct :=
  packetAppend packet (BigEndian.stored (fun s => data.toBitVec >>> s) 2)

def packetWriterWriteInt16 (packet : PacketStruct) (data : Int16) : PacketStruct :=
  packetAppend packet (BigEndian.stored (fun s => data.toBitVec.sshiftRight s) 2)

def packetWriterWriteUint32 (packet : PacketStruct) (data : UInt32) : PacketStruct :=
  packetAppend packet (BigEndian.stored (fun s => data.toBitVec >>> s) 4)

def packetWriterWriteInt32 (packet : PacketStruct) (data : Int32) : PacketStruct :=
  packetAppend packet (BigEndian.stored (fun s => data.toBitVec.sshiftRight s) 4)

def packetWriterWriteUint64 (packet : PacketStruct) (data : UInt64) : PacketStruct :=
  packetAppend packet (BigEndian.stored (fun s => data.toBitVec >>> s) 8)

def packetWriterWriteInt64 (packet : PacketStruct) (data : Int64) : PacketStruct :=
  packetAppend packet (BigEndian.stored (fun s => data.toBitVec.sshiftRight s) 8)

/-- A `float`, as its bit pattern. -/
def packetWriterWriteFloat (packet : PacketStruct) (bits : UInt32) : PacketStruct :=
  packetWriterWriteUint32 packet bits

/-- A `double`, as its bit pattern. -/
def packetWriterWriteDouble (packet : PacketStruct) (bits : UInt64) : PacketStruct :=
  packetWriterWriteUint64 packet bits

def packetWriterWriteBytes (packet : PacketStruct) (data : List UInt8) : PacketStruct :=
  if data.length = 0 then packet else packetAppend packet data

def packetWriterWriteStringN (packet : PacketStruct) (data : List UInt8) (len : ℕ) : PacketStruct :=
  if len = 0 then packet else packetAppend packet (data.take len)

/-- A string up to its first zero, without a terminator. -/
def packetWriterWriteString (packet : PacketStruct) (data : List UInt8) : PacketStruct :=
  packetWriterWriteStringN packet data (data.takeWhile (· ≠ 0)).length

/-- The first `len` bytes of the data and a terminating zero. -/
def packetWriterWriteCstringN (packet : PacketStruct) (data : List UInt8) (len : ℕ) :
    PacketStruct :=
  if len = sizeMax then { packet with error := .sizeOverflow }
  else packetAppend packet (data.take len ++ [0])

/-- A string up to its first zero. -/
def packetWriterWriteCstring (packet : PacketStruct) (data : List UInt8) : PacketStruct :=
  packetWriterWriteCstringN packet data (data.takeWhile (· ≠ 0)).length

/-- The data of a packet for which nothing has been allocated are empty. -/
def packetWriterWritePacket (packet src : PacketStruct) : PacketStruct :=
  packetWriterWriteBytes packet src.data

def packetEnableNdelay (packet : PacketStruct) : PacketStruct := { packet with ndelay := 1 }

def packetDup (packet : PacketStruct) : PacketStruct :=
  let cp := packetNew packet.type packet.size packet.expand
  let cp := { cp with ndelay := packet.ndelay, limit := packet.limit, error := packet.error }
  packetWriterWriteBytes cp packet.data

def packetDelete (packet : PacketStruct) (pos len : ℕ) : PacketStruct :=
  if pos > packet.len ∨ len > packet.len-pos then packet
  else { packet with data := packet.data.take pos ++ packet.data.drop (pos+len) }

/-- `packet_writer_mark_t`. -/
structure PacketWriterMark where
  pos : ℕ
deriving DecidableEq, Repr

def packetWriterMark (writer : PacketStruct) : PacketWriterMark := { pos := writer.len }

/-- `none` when the assertion fails: the packet is shorter than it was at the mark. -/
def packetWriterRollback (writer : PacketStruct) (mark : PacketWriterMark) : Option PacketStruct :=
  if mark.pos ≤ writer.len then some { writer with data := writer.data.take mark.pos } else none

/-- The limit leaves room for `n` more bytes, either in what is allocated or above it. What is
free below and above is not taken together. -/
def PacketStruct.HasRoom (packet : PacketStruct) (n : ℕ) : Prop :=
  n ≤ packet.size-packet.len ∨ n ≤ packet.limit-packet.size

instance (packet : PacketStruct) (n : ℕ) : Decidable (packet.HasRoom n) :=
  inferInstanceAs (Decidable (_ ∨ _))

/-- The part of a packet's state that writes keep: what is written fits into what is allocated,
and both are in the range of a `size_t`. -/
structure PacketStruct.Bounded (packet : PacketStruct) : Prop where
  limit : packet.limit ≤ sizeMax
  len_le_size : packet.len ≤ packet.size
  len_le_limit : packet.len ≤ packet.limit

/-- The size of a packet after `packet_ensure` has granted `n` bytes. -/
def PacketStruct.grownSize (packet : PacketStruct) (n : ℕ) : ℕ :=
  if n ≤ packet.size-packet.len then packet.size
  else packet.size+min (max packet.expand n) (packet.limit-packet.size)

/-- When `packet_ensure` grants bytes that the limit admits. -/
theorem packetEnsure_eq (packet : PacketStruct) (hb : packet.Bounded) (herr : packet.error = .none)
    (n : ℕ) (hfit : packet.len+n ≤ packet.limit) :
    packetEnsure packet n =
      if packet.HasRoom n then (true, { packet with size := packet.grownSize n })
      else (false, { packet with error := .sizeOverflow }) := by
  have hlimit := hb.limit
  have hsize := hb.len_le_size
  unfold packetEnsure PacketStruct.grownSize
  rw [if_neg (not_not.mpr herr), if_neg (by omega)]
  by_cases hfree : n ≤ packet.size-packet.len
  · rw [if_pos ⟨hsize, hfree⟩, if_pos (show packet.HasRoom n from Or.inl hfree), if_pos hfree]
  rw [if_neg fun h => hfree h.2, if_neg hfree]
  dsimp only
  -- more than the limit is never allocated, since then there would be room
  have hbelow : packet.size ≤ packet.limit := by omega
  have hgrowth : (if packet.size > packet.limit ∨
      max packet.expand n > packet.limit-packet.size then
      packet.limit-min packet.size packet.limit else max packet.expand n) =
      min (max packet.expand n) (packet.limit-packet.size) := by
    split_ifs <;> omega
  rw [hgrowth]
  by_cases hroom : n ≤ packet.limit-packet.size
  · rw [if_neg (by omega), if_pos (show packet.HasRoom n from Or.inr hroom)]
  · rw [if_pos (by omega), if_neg (show ¬packet.HasRoom n from not_or.mpr ⟨hfree, hroom⟩)]

/-- A write that does not fit under the limit is refused. -/
theorem packetEnsure_limit (packet : PacketStruct) (herr : packet.error = .none) (n : ℕ)
    (hlen : packet.len ≤ packet.limit) (hfit : packet.limit < packet.len+n) :
    packetEnsure packet n = (false, { packet with error := .limitExceeded }) := by
  unfold packetEnsure
  rw [if_neg (not_not.mpr herr), if_pos (Or.inr (by omega))]

/-- Errors stay, and nothing is written after one. -/
theorem packetAppend_error (packet : PacketStruct) (bytes : List UInt8)
    (herr : packet.error ≠ .none) : packetAppend packet bytes = packet := by
  unfold packetAppend packetEnsure
  rw [if_pos herr]
  rfl

/-- The packet after `bytes` have been appended. -/
def PacketStruct.appended (packet : PacketStruct) (bytes : List UInt8) : PacketStruct :=
  { packet with data := packet.data ++ bytes, size := packet.grownSize bytes.length }

/-- What a write of some bytes comes to. -/
theorem packetAppend_cases (packet : PacketStruct) (hb : packet.Bounded)
    (herr : packet.error = .none) (bytes : List UInt8) :
    (packet.len+bytes.length ≤ packet.limit ∧ packet.HasRoom bytes.length ∧
      packetAppend packet bytes = packet.appended bytes) ∨
    (¬(packet.len+bytes.length ≤ packet.limit ∧ packet.HasRoom bytes.length) ∧
      ∃ error, error ≠ .none ∧ packetAppend packet bytes = { packet with error := error }) := by
  unfold packetAppend
  by_cases hfit : packet.len+bytes.length ≤ packet.limit
  · rw [packetEnsure_eq packet hb herr bytes.length hfit]
    by_cases hroom : packet.HasRoom bytes.length
    · left
      rw [if_pos hroom]
      exact ⟨hfit, hroom, rfl⟩
    · right
      rw [if_neg hroom]
      exact ⟨fun h => hroom h.2, .sizeOverflow, fun h => (nomatch h), rfl⟩
  · right
    rw [packetEnsure_limit packet herr bytes.length hb.len_le_limit (by omega)]
    exact ⟨fun h => hfit h.1, .limitExceeded, fun h => (nomatch h), rfl⟩

theorem appended_nil (packet : PacketStruct) : packet.appended [] = packet := by
  have hsize : packet.grownSize 0 = packet.size := if_pos (Nat.zero_le _)
  unfold PacketStruct.appended
  rw [List.append_nil, List.length_nil, hsize]

theorem packetAppend_nil (packet : PacketStruct) (hb : packet.Bounded)
    (herr : packet.error = .none) : packetAppend packet [] = packet := by
  rcases packetAppend_cases packet hb herr [] with ⟨_, _, h⟩ | ⟨h, _⟩
  · rw [h, appended_nil]
  · exact absurd ⟨hb.len_le_limit, Or.inl (Nat.zero_le _)⟩ h

theorem PacketStruct.Bounded.appended {packet : PacketStruct} (hb : packet.Bounded)
    (bytes : List UInt8) (hfit : packet.len+bytes.length ≤ packet.limit) :
    (packet.appended bytes).Bounded := by
  have hlen : (packet.appended bytes).len = packet.len+bytes.length := List.length_append
  have hsize := hb.len_le_size
  refine ⟨hb.limit, ?_, ?_⟩
  · rw [hlen]
    show _ ≤ packet.grownSize bytes.length
    unfold PacketStruct.grownSize
    split_ifs <;> omega
  · rw [hlen]
    exact hfit

end LibAtrinik.Packet

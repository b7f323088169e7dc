import LibAtrinik.PacketWriter

namespace LibAtrinik.Packet

open PrefixGrammar

inductive FieldType where
  | uint8
  | int8
  | uint16
  | int16
  | uint32
  | int32
  | uint64
  | int64
  | float
  | double
  | bytes (len : ℕ)
  | cstring (maxLen : ℕ)
deriving DecidableEq, Repr

/-- A value of a field; floating point numbers are bit patterns. -/
inductive Field where
  | uint8 (v : UInt8)
  | int8 (v : Int8)
  | uint16 (v : UInt16)
  | int16 (v : Int16)
  | uint32 (v : UInt32)
  | int32 (v : Int32)
  | uint64 (v : UInt64)
  | int64 (v : Int64)
  | float (bits : UInt32)
  | double (bits : UInt64)
  | bytes (data : List UInt8)
  | cstring (data : List UInt8)
deriving DecidableEq, Repr

/-- The call of the packet writer for a field. -/
def Field.write (packet : PacketStruct) : Field → PacketStruct
  | .uint8 v => packetWriterWriteUint8 packet v
  | .int8 v => packetWriterWriteInt8 packet v
  | .uint16 v => packetWriterWriteUint16 packet v
  | .int16 v => packetWriterWriteInt16 packet v
  | .uint32 v => packetWriterWriteUint32 packet v
  | .int32 v => packetWriterWriteInt32 packet v
  | .uint64 v => packetWriterWriteUint64 packet v
  | .int64 v => packetWriterWriteInt64 packet v
  | .float bits => packetWriterWriteFloat packet bits
  | .double bits => packetWriterWriteDouble packet bits
  | .bytes data => packetWriterWriteBytes packet data
  | .cstring data => packetWriterWriteCstring packet data

def writeAll (packet : PacketStruct) (fields : List Field) : PacketStruct :=
  fields.foldl Field.write packet

/-- The value of a read, as a field. -/
def asField {α : Type} (f : α → Field) (r : α × PacketReader) : Field × PacketReader :=
  (f r.1, r.2)

/-- The call of the packet reader for a type of field. -/
def FieldType.read (reader : PacketReader) : FieldType → Field × PacketReader
  | .uint8 => asField .uint8 (packetReaderReadUint8 reader)
  | .int8 => asField .int8 (packetReaderReadInt8 reader)
  | .uint16 => asField .uint16 (packetReaderReadUint16 reader)
  | .int16 => asField .int16 (packetReaderReadInt16 reader)
  | .uint32 => asField .uint32 (packetReaderReadUint32 reader)
  | .int32 => asField .int32 (packetReaderReadInt32 reader)
  | .uint64 => asField .uint64 (packetReaderReadUint64 reader)
  | .int64 => asField .int64 (packetReaderReadInt64 reader)
  | .float => asField .float (packetReaderReadFloat reader)
  | .double => asField .double (packetReaderReadDouble reader)
  | .bytes len => asField .bytes (packetReaderReadView reader len)
  | .cstring maxLen => asField .cstring (packetReaderReadStringView reader maxLen)

def readAll : List FieldType → PacketReader → List Field × PacketReader
  | [], reader => ([], reader)
  | t :: ts, reader =>
    let first := t.read reader
    let others := readAll ts first.2
    (first.1 :: others.1, others.2)

/-- The field is a value of the type. -/
inductive Field.HasType : Field → FieldType → Prop where
  | uint8 (v : UInt8) : HasType (.uint8 v) .uint8
  | int8 (v : Int8) : HasType (.int8 v) .int8
  | uint16 (v : UInt16) : HasType (.uint16 v) .uint16
  | int16 (v : Int16) : HasType (.int16 v) .int16
  | uint32 (v : UInt32) : HasType (.uint32 v) .uint32
  | int32 (v : Int32) : HasType (.int32 v) .int32
  | uint64 (v : UInt64) : HasType (.uint64 v) .uint64
  | int64 (v : Int64) : HasType (.int64 v) .int64
  | float (bits : UInt32) : HasType (.float bits) .float
  | double (bits : UInt64) : HasType (.double bits) .double
  | bytes (data : List UInt8) : HasType (.bytes data) (.bytes data.length)
  | cstring (data : List UInt8) (maxLen : ℕ) (hzero : 0 ∉ data) (hlen : data.length ≤ maxLen) :
      HasType (.cstring data) (.cstring maxLen)

/-- The bytes of a field on the wire. -/
def Field.encode : Field → List UInt8
  | .uint8 v => [v]
  | .int8 v => [v.toUInt8]
  | .uint16 v => BigEndian.bytes 2 v.toNat
  | .int16 v => BigEndian.bytes 2 v.toBitVec.toNat
  | .uint32 v => BigEndian.bytes 4 v.toNat
  | .int32 v => BigEndian.bytes 4 v.toBitVec.toNat
  | .uint64 v => BigEndian.bytes 8 v.toNat
  | .int64 v => BigEndian.bytes 8 v.toBitVec.toNat
  | .float bits => BigEndian.bytes 4 bits.toNat
  | .double bits => BigEndian.bytes 8 bits.toNat
  | .bytes data => data
  | .cstring data => data ++ [0]

def encodeAll (fields : List Field) : List UInt8 := fields.flatMap Field.encode

/-- The encodings of the values of a type. -/
def wire (t : FieldType) (v : Field) : Language UInt8 := ⨆ _ : v.HasType t, {v.encode}

theorem mem_wire (t : FieldType) (v : Field) (word : List UInt8) :
    word ∈ wire t v ↔ v.HasType t ∧ word = v.encode := by
  refine Language.mem_iSup.trans ⟨?_, ?_⟩
  · rintro ⟨ht, hw⟩
    exact ⟨ht, hw⟩
  · rintro ⟨ht, hw⟩
    exact ⟨ht, hw⟩

/-- A read whose values are wrapped up as the fields of a type. -/
theorem recognizes_asField {α : Type} (t : FieldType) (read : PacketReader → α × PacketReader)
    (L : α → Language UInt8) (f : α → Field) (h : Recognizes readerCursor (checked read) L)
    (hL : ∀ a, L a = wire t (f a)) (hsurj : ∀ v : Field, v.HasType t → ∃ a, f a = v) :
    Recognizes readerCursor (checked fun reader => asField f (read reader)) (wire t) := by
  intro reader hg v reader'
  rw [checked_eq_some]
  constructor
  · rintro ⟨he, herr⟩
    obtain ⟨rfl, rfl⟩ := Prod.mk.inj he
    rw [← hL]
    exact (h reader hg _ _).mp
      ((checked_eq_some read reader (read reader).2 (read reader).1).mpr ⟨rfl, herr⟩)
  · rintro ⟨word, hw, hpre, hadv⟩
    obtain ⟨a, rfl⟩ := hsurj v ((mem_wire t v word).mp hw).1
    rw [← hL] at hw
    obtain ⟨he, herr⟩ := (checked_eq_some read reader reader' a).mp
      ((h reader hg a reader').mpr ⟨word, hw, hpre, hadv⟩)
    refine ⟨?_, herr⟩
    rw [asField, he]

/-- The same for the types that have no bound to observe. -/
theorem recognizes_number {α : Type} (t : FieldType) (read : PacketReader → α × PacketReader)
    (f : α → Field) (h : Recognizes readerCursor (checked read) (fun a => {(f a).encode}))
    (ht : ∀ a, (f a).HasType t) (hsurj : ∀ v : Field, v.HasType t → ∃ a, f a = v) :
    Recognizes readerCursor (checked fun reader => asField f (read reader)) (wire t) :=
  recognizes_asField t read _ f h (fun a => (given_true (ht a) _).symm) hsurj

/-- Each call of the reader recognizes the encodings of its type. -/
theorem recognizes_read (t : FieldType) :
    Recognizes readerCursor (checked fun reader => t.read reader) (wire t) := by
  cases t with
  | uint8 =>
    exact recognizes_number _ _ .uint8 recognizes_readUint8 .uint8 fun _ (.uint8 v) => ⟨v, rfl⟩
  | int8 =>
    exact recognizes_number _ _ .int8 recognizes_readInt8 .int8 fun _ (.int8 v) => ⟨v, rfl⟩
  | uint16 =>
    exact recognizes_number _ _ .uint16 recognizes_readUint16 .uint16 fun _ (.uint16 v) => ⟨v, rfl⟩
  | int16 =>
    exact recognizes_number _ _ .int16 recognizes_readInt16 .int16 fun _ (.int16 v) => ⟨v, rfl⟩
  | uint32 =>
    exact recognizes_number _ _ .uint32 recognizes_readUint32 .uint32 fun _ (.uint32 v) => ⟨v, rfl⟩
  | int32 =>
    exact recognizes_number _ _ .int32 recognizes_readInt32 .int32 fun _ (.int32 v) => ⟨v, rfl⟩
  | uint64 =>
    exact recognizes_number _ _ .uint64 recognizes_readUint64 .uint64 fun _ (.uint64 v) => ⟨v, rfl⟩
  | int64 =>
    exact recognizes_number _ _ .int64 recognizes_readInt64 .int64 fun _ (.int64 v) => ⟨v, rfl⟩
  | float =>
    exact recognizes_number _ _ .float recognizes_readUint32 .float fun _ (.float v) => ⟨v, rfl⟩
  | double =>
    exact recognizes_number _ _ .double recognizes_readUint64 .double fun _ (.double v) => ⟨v, rfl⟩
  | bytes len =>
    refine recognizes_asField _ _ _ .bytes (recognizes_readView len) (fun data => ?_) ?_
    · apply Language.ext
      intro word
      rw [mem_wire]
      constructor
      · rintro ⟨rfl, rfl⟩
        exact ⟨.bytes word, rfl⟩
      · rintro ⟨⟨data⟩, rfl⟩
        exact ⟨rfl, rfl⟩
    · intro v hv
      cases hv
      exact ⟨_, rfl⟩
  | cstring maxLen =>
    refine recognizes_asField _ _ _ .cstring (recognizes_readStringView maxLen) (fun data => ?_) ?_
    · apply Language.ext
      intro word
      rw [mem_wire, terminated, Language.mem_iSup]
      constructor
      · rintro ⟨⟨hzero, hlen⟩, hw⟩
        exact ⟨.cstring data maxLen hzero hlen, hw⟩
      · rintro ⟨ht, hw⟩
        cases ht with
        | cstring _ _ hzero hlen => exact ⟨⟨hzero, hlen⟩, hw⟩
    · intro v hv
      cases hv
      exact ⟨_, rfl⟩

/-- Errors of the reader stay. -/
theorem read_error (t : FieldType) (reader : PacketReader) (h : reader.error ≠ .none) :
    (t.read reader).2.error ≠ .none := by
  have htake (n : ℕ) : (packetReaderTake reader n).2.error ≠ .none := by
    rw [packetReaderTake, if_pos h]
    exact h
  cases t with
  | uint8 => exact htake 1
  | int8 => exact htake 1
  | uint16 => exact htake 2
  | int16 => exact htake 2
  | uint32 => exact htake 4
  | int32 => exact htake 4
  | uint64 => exact htake 8
  | int64 => exact htake 8
  | float => exact htake 4
  | double => exact htake 8
  | bytes len => exact htake len
  | cstring maxLen =>
    show (packetReaderReadStringView reader maxLen).2.error ≠ .none
    rw [packetReaderReadStringView, if_pos h]
    exact h

theorem readAll_error (ts : List FieldType) (reader : PacketReader) (h : reader.error ≠ .none) :
    (readAll ts reader).2.error ≠ .none := by
  induction ts generalizing reader with
  | nil => exact h
  | cons t ts ih => exact ih _ (read_error t reader h)

/-- The encodings of lists of values, one for each type. -/
def wireAll (ts : List FieldType) (fields : List Field) : Language UInt8 :=
  ⨆ _ : List.Forall₂ Field.HasType fields ts, {encodeAll fields}

theorem mem_wireAll (ts : List FieldType) (fields : List Field) (word : List UInt8) :
    word ∈ wireAll ts fields ↔
      List.Forall₂ Field.HasType fields ts ∧ word = encodeAll fields := by
  refine Language.mem_iSup.trans ⟨?_, ?_⟩
  · rintro ⟨ht, hw⟩
    exact ⟨ht, hw⟩
  · rintro ⟨ht, hw⟩
    exact ⟨ht, hw⟩

theorem recognizes_readAll (ts : List FieldType) :
    Recognizes readerCursor (checked (readAll ts)) (wireAll ts) := by
  induction ts with
  | nil =>
    refine ((recognizes_pure []).of_eq fun reader hg => ?_).congr fun fields => ?_
    · show (if reader.error = .none then some ([], reader) else none) = some ([], reader)
      rw [if_pos hg.1]
    · apply Language.ext
      intro word
      rw [mem_wireAll, Language.mem_iSup]
      constructor
      · rintro ⟨rfl, hw⟩
        exact ⟨.nil, hw⟩
      · rintro ⟨ht, hw⟩
        cases ht
        exact ⟨rfl, hw⟩
  | cons t ts ih =>
    have hstep := (recognizes_read t).bind fun v => ih.bind fun vs => recognizes_pure (v :: vs)
    refine (hstep.of_eq fun reader _ => ?_).congr fun fields => ?_
    · show checked (readAll (t :: ts)) reader =
        (checked (fun reader => t.read reader) reader).bind fun x =>
          (checked (readAll ts) x.2).bind fun y => some (x.1 :: y.1, y.2)
      have hall : checked (readAll (t :: ts)) reader =
          if (readAll ts (t.read reader).2).2.error = .none then
            some ((t.read reader).1 :: (readAll ts (t.read reader).2).1,
              (readAll ts (t.read reader).2).2)
          else none := rfl
      rw [hall]
      unfold checked
      by_cases herr : (t.read reader).2.error = .none
      · rw [if_pos herr, Option.bind_some]
        by_cases herr' : (readAll ts (t.read reader).2).2.error = .none
        · rw [if_pos herr', if_pos herr']
          rfl
        · rw [if_neg herr', if_neg herr']
          rfl
      · rw [if_neg herr, if_neg (readAll_error ts _ herr)]
        rfl
    · apply Language.ext
      intro word
      rw [mem_wireAll, Language.mem_iSup]
      constructor
      · rintro ⟨v, hw⟩
        obtain ⟨xs, hxs, ys, hys, rfl⟩ := Language.mem_mul.mp hw
        obtain ⟨vs, hvs⟩ := Language.mem_iSup.mp hys
        obtain ⟨zs, hzs, es, hes, rfl⟩ := Language.mem_mul.mp hvs
        obtain ⟨rfl, rfl⟩ := Language.mem_iSup.mp hes
        obtain ⟨ht, rfl⟩ := (mem_wire t v xs).mp hxs
        obtain ⟨hts, rfl⟩ := (mem_wireAll ts vs zs).mp hzs
        refine ⟨.cons ht hts, ?_⟩
        rw [List.append_nil]
        rfl
      · rintro ⟨hall, rfl⟩
        cases hall with
        | @cons v _ vs _ ht hts =>
          refine ⟨v, Language.append_mem_mul ((mem_wire t v _).mpr ⟨ht, rfl⟩) ?_⟩
          refine Language.mem_iSup.mpr ⟨vs, ?_⟩
          show encodeAll vs ∈ _
          rw [← List.append_nil (encodeAll vs)]
          exact Language.append_mem_mul ((mem_wireAll ts vs _).mpr ⟨hts, rfl⟩)
            (Language.mem_iSup.mpr ⟨rfl, rfl⟩)

/-- What the reader makes of a buffer from a position on, and when it comes out even. A position
behind the end is an error from the start. -/
theorem readAll_finish_at (ts : List FieldType) (data : List UInt8) (pos : ℕ)
    (hlen : data.length ≤ sizeMax) (fields : List Field) :
    (readAll ts (packetReaderInitAt data pos)).1 = fields ∧
      (packetReaderFinish (readAll ts (packetReaderInitAt data pos)).2).1 = true ↔
    pos ≤ data.length ∧ List.Forall₂ Field.HasType fields ts ∧
      data.drop pos = encodeAll fields := by
  by_cases hpos : pos ≤ data.length
  · have hinit : packetReaderInitAt data pos = { data := data, pos := pos } :=
      if_neg (Nat.not_lt.mpr hpos)
    have hg : readerCursor.good (packetReaderInitAt data pos) := by
      rw [hinit]
      exact ⟨rfl, hpos, hlen⟩
    have hrest : readerCursor.rest (packetReaderInitAt data pos) = data.drop pos := by
      rw [hinit]
      rfl
    have hrec (reader' : PacketReader) :=
      (checked_eq_some (readAll ts) (packetReaderInitAt data pos) reader' fields).symm.trans
        (recognizes_readAll ts (packetReaderInitAt data pos) hg fields reader')
    rw [packetReaderFinish_iff]
    constructor
    · intro h
      obtain ⟨word, hw, hpre, hadv⟩ := (hrec _).mp ⟨Prod.ext h.1 rfl, h.2.1⟩
      rw [hrest] at hpre
      have hend := hadv.trans (congrArg (fun reader => readerCursor.advance reader word.length) hinit)
      -- the word is a prefix of what is left of the buffer, and as long
      have hlength : pos+word.length = data.length := by
        calc pos+word.length = (readAll ts (packetReaderInitAt data pos)).2.pos :=
              (congrArg PacketReader.pos hend).symm
          _ = (readAll ts (packetReaderInitAt data pos)).2.data.length := h.2.2
          _ = data.length := congrArg (fun reader => reader.data.length) hend
      have hword : word = data.drop pos := by
        apply hpre.eq_of_length
        rw [List.length_drop]
        omega
      have hmem := (mem_wireAll ts fields word).mp hw
      rw [hword] at hmem
      exact ⟨hpos, hmem⟩
    · intro h
      have hread := (hrec (readerCursor.advance (packetReaderInitAt data pos)
        (data.drop pos).length)).mpr
        ⟨data.drop pos, (mem_wireAll ts fields _).mpr h.2, by rw [hrest], rfl⟩
      rw [hread.1]
      refine ⟨rfl, hread.2, ?_⟩
      rw [hinit]
      show pos+(data.drop pos).length = data.length
      rw [List.length_drop]
      omega
  · have herr : (packetReaderInitAt data pos).error ≠ .none := by
      rw [packetReaderInitAt, if_pos (Nat.not_le.mp hpos)]
      exact packetReaderFail_error _ _ (by decide)
    refine iff_of_false (fun h => ?_) (fun h => hpos h.1)
    rw [packetReaderFinish_iff] at h
    exact readAll_error ts _ herr h.2.1

/-- The same for a whole buffer. -/
theorem readAll_finish (ts : List FieldType) (data : List UInt8) (hlen : data.length ≤ sizeMax)
    (fields : List Field) :
    (readAll ts (packetReaderInit data)).1 = fields ∧
      (packetReaderFinish (readAll ts (packetReaderInit data)).2).1 = true ↔
    List.Forall₂ Field.HasType fields ts ∧ data = encodeAll fields := by
  apply (readAll_finish_at ts data 0 hlen fields).trans
  rw [List.drop_zero]
  exact and_iff_right (Nat.zero_le _)

end LibAtrinik.Packet

import LibAtrinik.BigEndian
import LibAtrinik.PrefixGrammar

/-! The bounded cursor that decodes packets. The reader's scope and the mirror of its position
are only ever written by these functions, so they have no part in what is read. -/
namespace LibAtrinik.Packet

open PrefixGrammar

/-- `packet_error_t`. -/
inductive PacketError where
  | none
  | truncated
  | invalidEncoding
  | limitExceeded
  | unsupported
  | trailingData
  | sizeOverflow
  | allocation
deriving DecidableEq, Repr, Inhabited

def sizeMax : ℕ := 2^64-1
def packetPayloadMax : ℕ := 2^16-1-1

/-- `packet_reader_t`. Its `len` is the length of the data. -/
structure PacketReader where
  data : List UInt8
  pos : ℕ := 0
  error : PacketError := .none
deriving DecidableEq, Repr, Inhabited

/-- The first error stays. -/
def packetReaderFail (reader : PacketReader) (error : PacketError) : PacketReader :=
  if reader.error = .none then { reader with error := error } else reader

def packetReaderInitAt (data : List UInt8) (pos : ℕ) : PacketReader :=
  let reader : PacketReader := { data := data, pos := pos }
  if pos > data.length then packetReaderFail { reader with pos := 0 } .invalidEncoding
  else reader

def packetReaderInit (data : List UInt8) : PacketReader := packetReaderInitAt data 0

def packetReaderRemaining (reader : PacketReader) : ℕ :=
  if reader.pos ≤ reader.data.length then reader.data.length-reader.pos else 0

def packetReaderFinish (reader : PacketReader) : Bool × PacketReader :=
  let finished :=
    if reader.error = .none ∧ reader.pos ≠ reader.data.length then
      packetReaderFail reader .trailingData
    else reader
  (finished.error = .none, finished)

/-- The next `len` bytes; `none` is the null pointer. -/
def packetReaderTake (reader : PacketReader) (len : ℕ) : Option (List UInt8) × PacketReader :=
  if reader.error ≠ .none then (none, reader)
  else if len > packetReaderRemaining reader then (none, packetReaderFail reader .truncated)
  else (some ((reader.data.drop reader.pos).take len), { reader with pos := reader.pos+len })

def packetReaderSkip (reader : PacketReader) (len : ℕ) : Bool × PacketReader :=
  if len = 0 ∧ reader.error = .none then (true, reader)
  else
    let taken := packetReaderTake reader len
    (taken.1.isSome, taken.2)

def packetReaderReadView (reader : PacketReader) (len : ℕ) : List UInt8 × PacketReader :=
  let taken := packetReaderTake reader len
  (taken.1.getD [], taken.2)

def packetReaderReadStringView (reader : PacketReader) (maxLen : ℕ) :
    List UInt8 × PacketReader :=
  if reader.error ≠ .none then ([], reader)
  else
    let remaining := packetReaderRemaining reader
    if remaining = 0 then ([], packetReaderFail reader .truncated)
    else
      let searchLen := min remaining (maxLen+if maxLen ≠ sizeMax then 1 else 0)
      -- memchr for the terminating zero
      match ((reader.data.drop reader.pos).take searchLen).findIdx? (· = 0) with
      | none =>
        ([], packetReaderFail reader (if remaining > maxLen then .limitExceeded else .truncated))
      | some len =>
        if len > maxLen then ([], packetReaderFail reader .limitExceeded)
        else ((reader.data.drop reader.pos).take len, { reader with pos := reader.pos+(len+1) })

/-- A string for the buffer `dest` of `destSize` bytes, which stays as it is on a failure. -/
def packetReaderReadStringBounded (reader : PacketReader) (dest : List UInt8)
    (destSize maxLen : ℕ) : (Bool × List UInt8) × PacketReader :=
  let view := packetReaderReadStringView reader maxLen
  if view.2.error ≠ .none then ((false, dest), view.2)
  else if view.1.length ≥ destSize then ((false, dest), packetReaderFail view.2 .limitExceeded)
  else ((true, view.1), view.2)

def packetReaderReadString (reader : PacketReader) (dest : List UInt8) (destSize : ℕ) :
    (Bool × List UInt8) × PacketReader :=
  packetReaderReadStringBounded reader dest destSize (destSize-1)

/-- A number of `n` bytes in network order, zero if there are not enough. -/
def packetReaderReadBits (w n : ℕ) (reader : PacketReader) : BitVec w × PacketReader :=
  let taken := packetReaderTake reader n
  ((taken.1.map (BigEndian.joined w)).getD 0, taken.2)

def packetReaderReadUint8 (reader : PacketReader) : UInt8 × PacketReader :=
  let r := packetReaderReadBits 8 1 reader
  (UInt8.ofBitVec r.1, r.2)

def packetReaderReadUint16 (reader : PacketReader) : UInt16 × PacketReader :=
  let r := packetReaderReadBits 16 2 reader
  (UInt16.ofBitVec r.1, r.2)

def packetReaderReadUint32 (reader : PacketReader) : UInt32 × PacketReader :=
  let r := packetReaderReadBits 32 4 reader
  (UInt32.ofBitVec r.1, r.2)

def packetReaderReadUint64 (reader : PacketReader) : UInt64 × PacketReader :=
  let r := packetReaderReadBits 64 8 reader
  (UInt64.ofBitVec r.1, r.2)

-- The signed numbers have the bits of the unsigned ones.

def packetReaderReadInt8 (reader : PacketReader) : Int8 × PacketReader :=
  let r := packetReaderReadUint8 reader
  (r.1.toInt8, r.2)

def packetReaderReadInt16 (reader : PacketReader) : Int16 × PacketReader :=
  let r := packetReaderReadUint16 reader
  (r.1.toInt16, r.2)

def packetReaderReadInt32 (reader : PacketReader) : Int32 × PacketReader :=
  let r := packetReaderReadUint32 reader
  (r.1.toInt32, r.2)

def packetReaderReadInt64 (reader : PacketReader) : Int64 × PacketReader :=
  let r := packetReaderReadUint64 reader
  (r.1.toInt64, r.2)

/-- A `float`, as its bit pattern. -/
def packetReaderReadFloat (reader : PacketReader) : UInt32 × PacketReader :=
  packetReaderReadUint32 reader

/-- A `double`, as its bit pattern. -/
def packetReaderReadDouble (reader : PacketReader) : UInt64 × PacketReader :=
  packetReaderReadUint64 reader

/-- The reader as a cursor over the bytes that it has not read. The length of the data is a
`size_t`. -/
def readerCursor : Cursor PacketReader UInt8 where
  rest := fun reader => reader.data.drop reader.pos
  advance := fun reader n => { reader with pos := reader.pos+n }
  good := fun reader => reader.error = .none ∧ reader.pos ≤ reader.data.length ∧
    reader.data.length ≤ sizeMax
  good_advance := fun reader n h hn => by
    rw [List.length_drop] at hn
    exact ⟨h.1, by dsimp only; omega, h.2.2⟩
  rest_advance := fun reader n _ _ => by rw [List.drop_drop]
  advance_zero := fun _ _ => rfl
  advance_advance := fun reader m n _ _ => by rw [Nat.add_assoc]

theorem remaining_eq (reader : PacketReader) (h : readerCursor.good reader) :
    packetReaderRemaining reader = (readerCursor.rest reader).length := by
  rw [packetReaderRemaining, if_pos h.2.1]
  exact List.length_drop.symm

/-- A read that counts as a success if the reader has no error afterwards. -/
def checked {α : Type} (read : PacketReader → α × PacketReader) : StateT PacketReader Option α :=
  fun reader => if (read reader).2.error = .none then some (read reader) else none

theorem checked_eq_some {α : Type} (read : PacketReader → α × PacketReader)
    (reader reader' : PacketReader) (a : α) :
    checked read reader = some (a, reader') ↔
      read reader = (a, reader') ∧ reader'.error = .none := by
  unfold checked
  split_ifs with h
  · rw [Option.some_inj]
    exact ⟨fun he => ⟨he, by rw [he] at h; exact h⟩, fun he => he.1⟩
  · refine iff_of_false (fun he => nomatch he) ?_
    rintro ⟨he, herr⟩
    rw [he] at h
    exact h herr

theorem packetReaderFail_error (reader : PacketReader) (error : PacketError) (h : error ≠ .none) :
    (packetReaderFail reader error).error ≠ .none := by
  unfold packetReaderFail
  split_ifs with he
  · exact h
  · exact he

theorem packetReaderFinish_iff (reader : PacketReader) :
    (packetReaderFinish reader).1 = true ↔
      reader.error = .none ∧ reader.pos = reader.data.length := by
  unfold packetReaderFinish
  rw [decide_eq_true_iff]
  by_cases h : reader.error = .none ∧ reader.pos ≠ reader.data.length
  · rw [if_pos h]
    exact iff_of_false (packetReaderFail_error reader _ (by decide)) fun h' => h.2 h'.2
  · rw [if_neg h]
    exact ⟨fun he => ⟨he, not_not.mp fun hne => h ⟨he, hne⟩⟩, fun he => he.1⟩

/-- What `packet_reader_take` does on a reader without an error. -/
theorem packetReaderTake_cases (reader : PacketReader) (h : readerCursor.good reader) (n : ℕ) :
    ((packetReaderTake reader n).2.error ≠ .none ∧ (packetReaderTake reader n).1 = none ∧
      (readerCursor.rest reader).length < n) ∨
    (packetReaderTake reader n = (some ((readerCursor.rest reader).take n),
      readerCursor.advance reader n) ∧ n ≤ (readerCursor.rest reader).length) := by
  unfold packetReaderTake
  rw [if_neg (not_not.mpr h.1), remaining_eq reader h]
  split_ifs with hlt
  · exact Or.inl ⟨packetReaderFail_error _ _ (by decide), rfl, hlt⟩
  · exact Or.inr ⟨rfl, by omega⟩

theorem packetReaderSkip_cases (reader : PacketReader) (h : readerCursor.good reader) (n : ℕ) :
    ((packetReaderSkip reader n).1 = false ∧ (readerCursor.rest reader).length < n) ∨
    (packetReaderSkip reader n = (true, readerCursor.advance reader n) ∧
      n ≤ (readerCursor.rest reader).length) := by
  unfold packetReaderSkip
  by_cases hzero : n = 0 ∧ reader.error = .none
  · rw [if_pos hzero, hzero.1, readerCursor.advance_zero reader h]
    exact Or.inr ⟨rfl, Nat.zero_le _⟩
  rw [if_neg hzero]
  rcases packetReaderTake_cases reader h n with ⟨_, hnone, hlt⟩ | ⟨htake, hle⟩
  · left
    dsimp only
    rw [hnone]
    exact ⟨rfl, hlt⟩
  · rw [htake]
    exact Or.inr ⟨rfl, hle⟩

/-- The blocks of `n` bytes of which `f` makes the value `a`. -/
def block {α : Type} (n : ℕ) (f : List UInt8 → α) (a : α) : Language UInt8 :=
  { word | word.length = n ∧ f word = a }

/-- A read that makes a value of the next `n` bytes. -/
theorem recognizes_take {α : Type} (n : ℕ) (f : List UInt8 → α) (a₀ : α) :
    Recognizes readerCursor
      (checked fun reader =>
        (((packetReaderTake reader n).1.map f).getD a₀, (packetReaderTake reader n).2))
      (block n f) := by
  intro reader hg a reader'
  rw [checked_eq_some]
  rcases packetReaderTake_cases reader hg n with ⟨herr, _, hlt⟩ | ⟨htake, hle⟩
  · constructor
    · rintro ⟨he, hnone⟩
      rw [← (Prod.mk.inj he).2] at hnone
      exact absurd hnone herr
    · rintro ⟨word, ⟨hlen, _⟩, hpre, _⟩
      have := hpre.length_le
      omega
  · rw [htake]
    constructor
    · rintro ⟨he, _⟩
      obtain ⟨rfl, rfl⟩ := Prod.mk.inj he
      have hlen : ((readerCursor.rest reader).take n).length = n := List.length_take_of_le hle
      refine ⟨_, ⟨hlen, rfl⟩, List.take_prefix _ _, ?_⟩
      rw [hlen]
    · rintro ⟨word, ⟨rfl, rfl⟩, hpre, rfl⟩
      rw [← List.prefix_iff_eq_take.mp hpre]
      exact ⟨rfl, hg.1⟩

/-- The same for a read that is the one above in other words. -/
theorem recognizes_of_take {α : Type} (read : PacketReader → α × PacketReader) (n : ℕ)
    (f : List UInt8 → α) (a₀ : α)
    (h : ∀ reader, read reader =
      (((packetReaderTake reader n).1.map f).getD a₀, (packetReaderTake reader n).2)) :
    Recognizes readerCursor (checked read) (block n f) := by
  obtain rfl := funext h
  exact recognizes_take n f a₀

/-- A block of bytes that is returned as it is. -/
theorem recognizes_readView (n : ℕ) :
    Recognizes readerCursor (checked fun reader => packetReaderReadView reader n)
      (block n id) := by
  refine recognizes_of_take _ n id [] fun reader => ?_
  rw [packetReaderReadView, Option.map_id]
  rfl

/-- The bytes of a number are determined by it. -/
theorem block_joined (w n : ℕ) (h : w = 8*n) (v : BitVec w) :
    block n (BigEndian.joined w) v = {BigEndian.bytes n v.toNat} := by
  apply Language.ext
  intro word
  constructor
  · rintro ⟨rfl, rfl⟩
    rw [BigEndian.toNat_joined w word h.ge, BigEndian.bytes_value]
    rfl
  · intro hw
    obtain rfl : word = BigEndian.bytes n v.toNat := hw
    refine ⟨BigEndian.length_bytes _ _, BitVec.eq_of_toNat_eq ?_⟩
    have hlen := BigEndian.length_bytes n v.toNat
    rw [BigEndian.toNat_joined w _ (by rw [hlen, h]), BigEndian.value_bytes]
    rw [← BigEndian.two_pow_eight_mul, ← h]
    exact v.isLt

/-- A number, with the conversion `f` between its bits and the type of the value. -/
theorem recognizes_readBits {α : Type} (read : PacketReader → α × PacketReader) (w n : ℕ)
    (hw : w = 8*n) (f : BitVec w → α) (g : α → BitVec w) (hfg : ∀ a, f (g a) = a)
    (hgf : ∀ v, g (f v) = v)
    (h : ∀ reader, read reader =
      (f (packetReaderReadBits w n reader).1, (packetReaderReadBits w n reader).2)) :
    Recognizes readerCursor (checked read) (fun a => {BigEndian.bytes n (g a).toNat}) := by
  refine (recognizes_of_take read n (f ∘ BigEndian.joined w) (f 0) fun reader => ?_).congr ?_
  · rw [h, packetReaderReadBits, ← Option.map_map]
    cases (packetReaderTake reader n).1 <;> rfl
  · intro a
    rw [← block_joined w n hw]
    apply Language.ext
    intro word
    refine and_congr_right fun _ => ?_
    constructor
    · intro he
      rw [← he]
      exact (hgf _).symm
    · intro he
      exact (congrArg f he).trans (hfg a)

theorem recognizes_readUint8 :
    Recognizes readerCursor (checked packetReaderReadUint8) (fun v => {[v]}) := by
  refine (recognizes_readBits packetReaderReadUint8 8 1 rfl UInt8.ofBitVec UInt8.toBitVec
    (fun _ => rfl) (fun _ => rfl) (fun _ => rfl)).congr fun v => ?_
  rw [BigEndian.bytes, BigEndian.bytes, pow_zero, Nat.div_one]
  exact congrArg (fun b => ({[b]} : Language UInt8)) UInt8.ofNat_toNat

theorem recognizes_readUint16 :
    Recognizes readerCursor (checked packetReaderReadUint16)
      (fun v => {BigEndian.bytes 2 v.toNat}) :=
  recognizes_readBits _ 16 2 rfl UInt16.ofBitVec UInt16.toBitVec (fun _ => rfl) (fun _ => rfl)
    (fun _ => rfl)

theorem recognizes_readUint32 :
    Recognizes readerCursor (checked packetReaderReadUint32)
      (fun v => {BigEndian.bytes 4 v.toNat}) :=
  recognizes_readBits _ 32 4 rfl UInt32.ofBitVec UInt32.toBitVec (fun _ => rfl) (fun _ => rfl)
    (fun _ => rfl)

theorem recognizes_readUint64 :
    Recognizes readerCursor (checked packetReaderReadUint64)
      (fun v => {BigEndian.bytes 8 v.toNat}) :=
  recognizes_readBits _ 64 8 rfl UInt64.ofBitVec UInt64.toBitVec (fun _ => rfl) (fun _ => rfl)
    (fun _ => rfl)

theorem recognizes_readInt8 :
    Recognizes readerCursor (checked packetReaderReadInt8) (fun v => {[v.toUInt8]}) := by
  refine (recognizes_readBits packetReaderReadInt8 8 1 rfl (fun v => (UInt8.ofBitVec v).toInt8)
    Int8.toBitVec (fun _ => rfl) (fun _ => rfl) (fun _ => rfl)).congr fun v => ?_
  rw [BigEndian.bytes, BigEndian.bytes, pow_zero, Nat.div_one]
  exact congrArg (fun b => ({[b]} : Language UInt8)) UInt8.ofNat_toNat

theorem recognizes_readInt16 :
    Recognizes readerCursor (checked packetReaderReadInt16)
      (fun v => {BigEndian.bytes 2 v.toBitVec.toNat}) :=
  recognizes_readBits _ 16 2 rfl (fun v => (UInt16.ofBitVec v).toInt16) Int16.toBitVec
    (fun _ => rfl) (fun _ => rfl) (fun _ => rfl)

theorem recognizes_readInt32 :
    Recognizes readerCursor (checked packetReaderReadInt32)
      (fun v => {BigEndian.bytes 4 v.toBitVec.toNat}) :=
  recognizes_readBits _ 32 4 rfl (fun v => (UInt32.ofBitVec v).toInt32) Int32.toBitVec
    (fun _ => rfl) (fun _ => rfl) (fun _ => rfl)

theorem recognizes_readInt64 :
    Recognizes readerCursor (checked packetReaderReadInt64)
      (fun v => {BigEndian.bytes 8 v.toBitVec.toNat}) :=
  recognizes_readBits _ 64 8 rfl (fun v => (UInt64.ofBitVec v).toInt64) Int64.toBitVec
    (fun _ => rfl) (fun _ => rfl) (fun _ => rfl)

/-- Where the search for the terminating zero ends. -/
theorem findIdx?_terminator (rest : List UInt8) (k n : ℕ) :
    (rest.take k).findIdx? (· = 0) = some n ↔
      ∃ s : List UInt8, s.length = n ∧ n < k ∧ 0 ∉ s ∧ s ++ [0] <+: rest := by
  induction rest generalizing k n with
  | nil =>
    rw [List.take_nil]
    refine iff_of_false (fun h => nomatch h) ?_
    rintro ⟨s, _, _, _, hpre⟩
    have := hpre.length_le
    simp at this
  | cons b rest ih =>
    cases k with
    | zero =>
      refine iff_of_false (fun h => nomatch h) ?_
      rintro ⟨s, _, hlt, _⟩
      omega
    | succ k =>
      rw [List.take_succ_cons, List.findIdx?_cons]
      by_cases hb : b = 0
      · subst hb
        simp only [decide_true, if_true, Option.some_inj]
        constructor
        · rintro rfl
          exact ⟨[], rfl, Nat.succ_pos k, by simp, ⟨rest, rfl⟩⟩
        · rintro ⟨s, rfl, _, hs, hpre⟩
          -- a longer string would begin with the zero
          cases s with
          | nil => rfl
          | cons x s =>
            rw [List.cons_append, List.cons_prefix_cons] at hpre
            exact absurd (hpre.1 ▸ List.mem_cons_self) hs
      · rw [if_neg (by simpa using hb), Option.map_eq_some_iff]
        constructor
        · rintro ⟨m, hm, rfl⟩
          obtain ⟨s, rfl, hlt, hs, hpre⟩ := (ih k m).mp hm
          refine ⟨b :: s, rfl, by omega, ?_, ?_⟩
          · rw [List.mem_cons, not_or]
            exact ⟨fun he => hb he.symm, hs⟩
          · rw [List.cons_append, List.cons_prefix_cons]
            exact ⟨rfl, hpre⟩
        · rintro ⟨s, rfl, hlt, hs, hpre⟩
          cases s with
          | nil =>
            rw [List.nil_append, List.cons_prefix_cons] at hpre
            exact absurd hpre.1.symm hb
          | cons x s =>
            rw [List.cons_append, List.cons_prefix_cons] at hpre
            rw [List.mem_cons, not_or] at hs
            rw [List.length_cons] at hlt ⊢
            exact ⟨s.length, (ih k s.length).mpr ⟨s, rfl, by omega, hs.2, hpre.2⟩, rfl⟩

/-- A string that is read has at most `maxLen` bytes, and none is read on a failure. -/
theorem readStringView_length (reader : PacketReader) (maxLen : ℕ) :
    (packetReaderReadStringView reader maxLen).1.length ≤ maxLen ∧
      ((packetReaderReadStringView reader maxLen).2.error ≠ .none →
        (packetReaderReadStringView reader maxLen).1 = []) := by
  unfold packetReaderReadStringView
  by_cases herr : reader.error = .none
  · rw [if_neg (not_not.mpr herr)]
    dsimp only
    by_cases hempty : packetReaderRemaining reader = 0
    · rw [if_pos hempty]
      exact ⟨Nat.zero_le _, fun _ => rfl⟩
    rw [if_neg hempty]
    cases (List.take _ (reader.data.drop reader.pos)).findIdx? (· = 0) with
    | none => exact ⟨Nat.zero_le _, fun _ => rfl⟩
    | some len =>
      dsimp only
      by_cases hlong : len > maxLen
      · rw [if_pos hlong]
        exact ⟨Nat.zero_le _, fun _ => rfl⟩
      · rw [if_neg hlong]
        refine ⟨?_, fun h => absurd herr h⟩
        rw [List.length_take]
        omega
  · rw [if_pos herr]
    exact ⟨Nat.zero_le _, fun _ => rfl⟩

/-- In a buffer that is empty at first, a string is what its view shows. -/
theorem packetReaderReadString_view (reader : PacketReader) (destSize : ℕ) (h : 0 < destSize) :
    (packetReaderReadString reader [] destSize).1.2 =
        (packetReaderReadStringView reader (destSize-1)).1 ∧
      (packetReaderReadString reader [] destSize).2 =
        (packetReaderReadStringView reader (destSize-1)).2 := by
  have hview := readStringView_length reader (destSize-1)
  unfold packetReaderReadString packetReaderReadStringBounded
  dsimp only
  by_cases herr : (packetReaderReadStringView reader (destSize-1)).2.error = .none
  · rw [if_neg (not_not.mpr herr), if_neg (by omega)]
    exact ⟨rfl, rfl⟩
  · rw [if_pos herr]
    exact ⟨(hview.2 herr).symm, rfl⟩

/-- The strings without a zero of at most `maxLen` bytes, terminated by a zero. -/
def terminated (maxLen : ℕ) (s : List UInt8) : Language UInt8 :=
  ⨆ _ : 0 ∉ s ∧ s.length ≤ maxLen, {s ++ [0]}

theorem recognizes_readStringView (maxLen : ℕ) :
    Recognizes readerCursor (checked fun reader => packetReaderReadStringView reader maxLen)
      (terminated maxLen) := by
  intro reader hg view reader'
  rw [checked_eq_some]
  have hrem := remaining_eq reader hg
  have hmax : (readerCursor.rest reader).length ≤ sizeMax := by
    have hle : (readerCursor.rest reader).length ≤ reader.data.length := by
      show (reader.data.drop reader.pos).length ≤ _
      rw [List.length_drop]
      omega
    exact hle.trans hg.2.2
  have hrest : reader.data.drop reader.pos = readerCursor.rest reader := rfl
  -- every string that fits is found by the search
  have hsearch (s : List UInt8) (hs : s.length ≤ maxLen) (hpre : s ++ [0] <+: readerCursor.rest reader) :
      s.length < min (readerCursor.rest reader).length
        (maxLen+if maxLen ≠ sizeMax then 1 else 0) := by
    have hle := hpre.length_le
    rw [List.length_append, List.length_singleton] at hle
    split_ifs <;> omega
  have hfail (error : PacketError) (he : error ≠ .none)
      (hno : ∀ s : List UInt8, 0 ∉ s → s.length ≤ maxLen → ¬s ++ [0] <+: readerCursor.rest reader) :
      (([], packetReaderFail reader error) : List UInt8 × PacketReader) = (view, reader') ∧
        reader'.error = .none ↔
      ∃ word ∈ terminated maxLen view, word <+: readerCursor.rest reader ∧
        reader' = readerCursor.advance reader word.length := by
    constructor
    · rintro ⟨heq, hnone⟩
      rw [← (Prod.mk.inj heq).2] at hnone
      exact absurd hnone (packetReaderFail_error reader error he)
    · rintro ⟨word, hw, hpre, _⟩
      obtain ⟨⟨hz, hlen⟩, hw⟩ := Language.mem_iSup.mp hw
      obtain rfl : word = view ++ [0] := hw
      exact absurd hpre (hno view hz hlen)
  unfold packetReaderReadStringView
  rw [if_neg (not_not.mpr hg.1), hrem, hrest]
  dsimp only
  by_cases hempty : (readerCursor.rest reader).length = 0
  · rw [if_pos hempty]
    refine hfail .truncated (by decide) fun s _ _ hpre => ?_
    have := hpre.length_le
    rw [List.length_append, List.length_singleton] at this
    omega
  rw [if_neg hempty]
  cases hf : ((readerCursor.rest reader).take (min (readerCursor.rest reader).length
      (maxLen+if maxLen ≠ sizeMax then 1 else 0))).findIdx? (· = 0) with
  | none =>
    dsimp only
    refine hfail _ (by split_ifs <;> decide) fun s hz hlen hpre => ?_
    have hsome := (findIdx?_terminator _ _ s.length).mpr ⟨s, rfl, hsearch s hlen hpre, hz, hpre⟩
    rw [hf] at hsome
    cases hsome
  | some n =>
    obtain ⟨s, rfl, hlt, hz, hpre⟩ := (findIdx?_terminator _ _ n).mp hf
    dsimp only
    have htake : (readerCursor.rest reader).take s.length = s := by
      obtain ⟨more, hmore⟩ := hpre
      rw [← hmore, List.append_assoc, List.take_left]
    by_cases hlong : s.length > maxLen
    · rw [if_pos hlong]
      refine hfail .limitExceeded (by decide) fun s' hz' hlen' hpre' => ?_
      have hsome := (findIdx?_terminator _ _ s'.length).mpr
        ⟨s', rfl, hsearch s' hlen' hpre', hz', hpre'⟩
      rw [hf] at hsome
      have := Option.some.inj hsome
      omega
    · rw [if_neg hlong, htake]
      constructor
      · rintro ⟨heq, _⟩
        obtain ⟨rfl, rfl⟩ := Prod.mk.inj heq
        refine ⟨s ++ [0], Language.mem_iSup.mpr ⟨⟨hz, by omega⟩, rfl⟩, hpre, ?_⟩
        rw [List.length_append]
        rfl
      · rintro ⟨word, hw, hpre', rfl⟩
        obtain ⟨⟨hz', hlen'⟩, hw⟩ := Language.mem_iSup.mp hw
        obtain rfl : word = view ++ [0] := hw
        -- the first zero is where both strings end
        have hsome := (findIdx?_terminator _ _ view.length).mpr
          ⟨view, rfl, hsearch view hlen' hpre', hz', hpre'⟩
        rw [hf] at hsome
        have hlen : s.length = view.length := Option.some.inj hsome
        have hview : s = view := by
          rw [← htake, hlen]
          obtain ⟨more, hmore⟩ := hpre'
          rw [← hmore, List.append_assoc, List.take_left]
        rw [hview, List.length_append]
        exact ⟨rfl, hg.1⟩

end LibAtrinik.Packet

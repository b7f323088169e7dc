import LibAtrinik.Path
import LibAtrinik.TerminatedText
import Mathlib.Algebra.GroupWithZero.Nat

/-! The string buffer of `stringbuffer.c` in its memory, of which only a part has been written. The
text that it stands for is the abstract buffer that the other modules work with. -/
namespace LibAtrinik.StringBufferMemory

open LibAtrinik.Path TerminatedText

/-- `StringBuffer`. A cell is `none` as long as nothing has been written to it. -/
structure Buffer where
  buf : List (Option Char)
  pos : ℕ
  size : ℕ
deriving DecidableEq, Repr

/-- `memcpy` into the buffer. -/
def writeAt (cells : List (Option Char)) (at' : ℕ) (data : List (Option Char)) :
    List (Option Char) :=
  cells.take at' ++ data ++ cells.drop (at'+data.length)

def stringbufferNew : Buffer where
  buf := List.replicate maxBuf none
  pos := 0
  size := maxBuf

/-- How a call ends that does not come back: `xrealloc` ends the program, or an `int` overflows. -/
inductive Stop where
  | aborted
  | overflowed
deriving DecidableEq, Repr

/-- `stringbuffer_ensure`. `memory` is the size up to which an allocation succeeds. -/
def stringbufferEnsure (memory : ℕ) (sb : Buffer) (len : ℕ) : Except Stop Buffer :=
  if (sb.pos+len)%2^64 ≤ sb.size then .ok sb
  else
    let newSize := (sb.pos+len+maxBuf)%2^64
    if newSize ≤ memory then
      .ok { sb with
        buf := sb.buf.take newSize ++ List.replicate (newSize-sb.buf.length) none
        size := newSize }
    else .error .aborted

/-- `memcpy` behind the text, and counting what has been copied. -/
def appendCells (sb : Buffer) (data : List (Option Char)) : Buffer :=
  { sb with
    buf := writeAt sb.buf sb.pos data
    pos := sb.pos+data.length }

def stringbufferAppendStringLen (memory : ℕ) (sb : Buffer) (str : List Char) (len : ℕ) :
    Except Stop Buffer := do
  let sb ← stringbufferEnsure memory sb (len+1)
  return appendCells sb ((str.take len).map some)

def stringbufferAppendString (memory : ℕ) (sb : Buffer) (str : List Char) : Except Stop Buffer :=
  stringbufferAppendStringLen memory sb str str.length

def stringbufferAppendChar (memory : ℕ) (sb : Buffer) (c : Char) : Except Stop Buffer := do
  let sb ← stringbufferEnsure memory sb (1+1)
  return appendCells sb [some c]

/-- `stringbuffer_append_stringbuffer` of another buffer. -/
def stringbufferAppendStringbuffer (memory : ℕ) (sb sb2 : Buffer) : Except Stop Buffer := do
  let sb ← stringbufferEnsure memory sb (sb2.pos+1)
  return appendCells sb (sb2.buf.take sb2.pos)

/-- `INT_MAX`. -/
def intMax : ℕ := 2147483647

/-- What `vsnprintf` writes if it has room for `size` characters. -/
def vsnprintfText (formatted : List Char) (size : ℕ) : List (Option Char) :=
  if size = 0 then [] else ((formatted.take (size-1)) ++ [NUL]).map some

/-- What it returns; `none` for a negative number. -/
def vsnprintfLength (formatted : List Char) : Option ℕ :=
  if formatted.length ≤ intMax then some formatted.length else none

/-- `vsnprintf` behind the text. -/
def printInto (sb : Buffer) (formatted : List Char) (size : ℕ) : Buffer :=
  { sb with buf := writeAt sb.buf sb.pos (vsnprintfText formatted size) }

/-- One round of the loop of `stringbuffer_append_printf` for what the format gives. -/
def printfRound (memory : ℕ) (formatted : List Char) :
    ℕ × Buffer → (ℕ × Buffer) ⊕ Except Stop Buffer
  | (size, sb) =>
    match stringbufferEnsure memory sb size with
    | .error stop => .inr (.error stop)
    | .ok sb =>
      let sb := printInto sb formatted size
      match vsnprintfLength formatted with
      | some n =>
        if n < size then .inr (.ok { sb with pos := sb.pos+n })
        -- `n + 1` is computed as an `int`
        else if n = intMax then .inr (.error .overflowed)
        else .inl (n+1, sb)
      | none => .inl (size*2%2^64, sb)

def stringbufferAppendPrintf (memory fuel : ℕ) (sb : Buffer) (formatted : List Char) :
    Option (Except Stop Buffer) :=
  FuelLoop.run (printfRound memory formatted) fuel (maxBuf, sb)

/-- `stringbuffer_seek`, where `SOFT_ASSERT` does not abort, as in builds with `NDEBUG`. -/
def stringbufferSeek (sb : Buffer) (pos : ℕ) : Buffer :=
  if pos < sb.size then { sb with pos := pos } else sb

/-- The loop of `stringbuffer_index`, with so many rounds left. -/
def indexFrom (buf : List (Option Char)) (c : Char) : ℕ → ℕ → Option ℕ
  | 0, _ => none
  | left+1, i => if buf[i]? = some (some c) then some i else indexFrom buf c left (i+1)

def stringbufferIndex (sb : Buffer) (c : Char) : Option ℕ := indexFrom sb.buf c sb.pos 0

/-- The loop of `stringbuffer_rindex`. -/
def rindexFrom (buf : List (Option Char)) (c : Char) : ℕ → Option ℕ
  | 0 => none
  | i+1 => if buf[i]? = some (some c) then some i else rindexFrom buf c i

def stringbufferRindex (sb : Buffer) (c : Char) : Option ℕ := rindexFrom sb.buf c sb.pos

/-- `sb->buf[sb->pos] = '\0'` -/
def terminate (sb : Buffer) : Buffer := { sb with buf := writeAt sb.buf sb.pos [some NUL] }

/-- What a cell holds, as far as that is known. -/
def cString (buf : List (Option Char)) : List (Option Char) := buf.takeWhile (· ≠ some NUL)

/-- The string that `stringbuffer_finish` returns. -/
def stringbufferFinish (sb : Buffer) : List (Option Char) := cString (terminate sb).buf

/-- The indices of `string_sub`. -/
def subEnd (len : ℕ) (finish : ℤ) : ℤ :=
  if finish ≤ 0 then (if (len : ℤ)+finish < 0 then 0 else (len : ℤ)+finish) else finish

def subStart (start finish : ℤ) : ℤ :=
  if start < 0 then (if finish+start < 0 then 0 else finish+start) else start

/-- `string_sub`. -/
def stringSub {α : Type} (str : List α) (start finish : ℤ) : List α :=
  let finish := subEnd str.length finish
  let start := subStart start finish
  if start > finish ∨ start.toNat ≥ str.length then []
  else (str.drop start.toNat).take (min (str.length-start.toNat) (finish-start).toNat)

/-- `stringbuffer_sub`. -/
def stringbufferSub (sb : Buffer) (start finish : ℤ) : Buffer × List (Option Char) :=
  (terminate sb, stringSub (cString (terminate sb).buf) start finish)

/-- A call that changes the buffer. -/
inductive Op where
  | appendString (str : List Char)
  | appendStringLen (str : List Char) (len : ℕ)
  | appendChar (c : Char)
  | appendPrintf (formatted : List Char)
  | appendStringbuffer (sb2 : Buffer)
  | seek (pos : ℕ)
  | sub (start finish : ℤ)

def step (memory fuel : ℕ) (sb : Buffer) : Op → Option (Except Stop Buffer)
  | .appendString str => some (stringbufferAppendString memory sb str)
  | .appendStringLen str len => some (stringbufferAppendStringLen memory sb str len)
  | .appendChar c => some (stringbufferAppendChar memory sb c)
  | .appendPrintf formatted => stringbufferAppendPrintf memory fuel sb formatted
  | .appendStringbuffer sb2 => some (stringbufferAppendStringbuffer memory sb sb2)
  | .seek pos => some (.ok (stringbufferSeek sb pos))
  | .sub start finish => some (.ok (stringbufferSub sb start finish).1)

def run (memory fuel : ℕ) (sb : Buffer) : List Op → Option (Except Stop Buffer)
  | [] => some (.ok sb)
  | op :: ops =>
    match step memory fuel sb op with
    | none => none
    | some (.error stop) => some (.error stop)
    | some (.ok sb) => run memory fuel sb ops

/-- Nothing in memory is so large that the sum of two sizes overflows. -/
structure Memory (memory : ℕ) : Prop where
  least : maxBuf ≤ memory
  most : memory+maxBuf ≤ 2^63

/-- `pos < size` always holds, and `size` is the size of the allocation. -/
structure Valid (memory : ℕ) (sb : Buffer) : Prop where
  allocated : sb.buf.length = sb.size
  room : sb.pos < sb.size
  granted : sb.size ≤ memory

/-- The text before the position. -/
structure Holds (memory : ℕ) (sb : Buffer) (text : List Char) : Prop
    extends Valid memory sb where
  cells : sb.buf.take sb.pos = text.map some

/-- A call comes back with `P`, with no more memory than `limit`; or the memory is below that, and
the program has been ended. -/
def Ends (memory limit : ℕ) (P : Buffer → Prop) (r : Except Stop Buffer) : Prop :=
  (r = .error .aborted ∧ memory < limit) ∨ ∃ sb, r = .ok sb ∧ P sb ∧ sb.size ≤ limit

variable {memory : ℕ} {sb sb' sb2 : Buffer} {text : List Char}

theorem Ends.mono {limit limit' : ℕ} {P Q : Buffer → Prop} {r : Except Stop Buffer}
    (h : Ends memory limit P r) (hlimit : limit ≤ limit') (hPQ : ∀ sb, P sb → Q sb) :
    Ends memory limit' Q r := by
  rcases h with ⟨hr, hlt⟩ | ⟨sb, hr, hP, hle⟩
  · exact Or.inl ⟨hr, by omega⟩
  · exact Or.inr ⟨sb, hr, hPQ sb hP, by omega⟩

/-- A call goes on after a part of it that comes back. -/
theorem Ends.bind {limit limit' : ℕ} {P Q : Buffer → Prop} {r : Except Stop Buffer}
    {f : Buffer → Except Stop Buffer} (h : Ends memory limit P r) (hlimit : limit ≤ limit')
    (hf : ∀ sb, P sb → sb.size ≤ limit → Ends memory limit' Q (f sb)) :
    Ends memory limit' Q (r >>= f) := by
  rcases h with ⟨rfl, hlt⟩ | ⟨sb, rfl, hP, hle⟩
  · exact Or.inl ⟨rfl, by omega⟩
  · exact hf sb hP hle

theorem length_writeAt (cells data : List (Option Char)) (at' : ℕ)
    (h : at'+data.length ≤ cells.length) : (writeAt cells at' data).length = cells.length := by
  rw [writeAt, List.length_append, List.length_append, List.length_take, List.length_drop]
  omega

/-- What is in front of the place that is written stays. -/
theorem take_writeAt (cells data : List (Option Char)) (at' : ℕ) (h : at' ≤ cells.length) :
    (writeAt cells at' data).take at' = cells.take at' := by
  rw [writeAt, List.append_assoc, List.take_append_of_le_length (by rw [List.length_take]; omega),
    List.take_take, Nat.min_self]

theorem take_add_writeAt (cells data : List (Option Char)) (at' n : ℕ) (h : at' ≤ cells.length)
    (hn : n ≤ data.length) :
    (writeAt cells at' data).take (at'+n) = cells.take at' ++ data.take n := by
  have hlen : (cells.take at').length = at' := by rw [List.length_take]; omega
  rw [writeAt, List.append_assoc]
  nth_rewrite 1 [← hlen]
  rw [List.take_length_add_append, List.take_append_of_le_length hn]

/-- A buffer that has been made large enough. -/
structure Ensured (memory : ℕ) (sb : Buffer) (len : ℕ) (sb' : Buffer) : Prop
    extends Valid memory sb' where
  pos_eq : sb'.pos = sb.pos
  fits : sb.pos+len ≤ sb'.size
  cells_eq : sb'.buf.take sb.pos = sb.buf.take sb.pos

theorem Valid.ensure (h : Valid memory sb) (hmem : Memory memory) (len : ℕ) (hlen : len ≤ 2^63) :
    Ends memory (max sb.size (sb.pos+len+maxBuf)) (Ensured memory sb len)
      (stringbufferEnsure memory sb len) := by
  have hbuf := h.allocated
  have hroom := h.room
  have hgranted := h.granted
  have hmost := hmem.most
  have hsum : (sb.pos+len)%2^64 = sb.pos+len := Nat.mod_eq_of_lt (by omega)
  have hnew : (sb.pos+len+maxBuf)%2^64 = sb.pos+len+maxBuf := Nat.mod_eq_of_lt (by omega)
  unfold stringbufferEnsure
  rw [hsum]
  dsimp only
  rw [hnew]
  split_ifs with hfits hmemory
  · exact Or.inr ⟨sb, rfl, ⟨h, rfl, hfits, rfl⟩, le_max_left _ _⟩
  · have hall : sb.buf.take (sb.pos+len+maxBuf) = sb.buf := List.take_of_length_le (by omega)
    refine Or.inr ⟨_, rfl, ⟨⟨?_, ?_, hmemory⟩, rfl, Nat.le_add_right _ _, ?_⟩, le_max_right _ _⟩
    · dsimp only
      rw [hall, List.length_append, List.length_replicate]
      omega
    · dsimp only
      omega
    · dsimp only
      rw [hall]
      exact List.take_append_of_le_length (by omega)
  · exact Or.inl ⟨rfl, by omega⟩

/-- The text in front of the position, and then `data`. -/
def Appended (memory : ℕ) (sb : Buffer) (data : List (Option Char)) (sb' : Buffer) : Prop :=
  Valid memory sb' ∧ sb'.buf.take sb'.pos = sb.buf.take sb.pos ++ data

theorem Ensured.append {len : ℕ} (h : Ensured memory sb len sb') (data : List (Option Char))
    (hlen : data.length+1 ≤ len) : Appended memory sb data (appendCells sb' data) := by
  have halloc := h.allocated
  have hfits := h.fits
  have hpos := h.pos_eq
  refine ⟨⟨?_, ?_, h.granted⟩, ?_⟩
  · rw [appendCells]
    dsimp only
    rw [length_writeAt _ _ _ (by omega)]
    exact halloc
  · rw [appendCells]
    dsimp only
    omega
  · rw [appendCells]
    dsimp only
    rw [take_add_writeAt _ _ _ _ (by omega) le_rfl, List.take_length, hpos, h.cells_eq]

/-- An append into a buffer that is made large enough before. -/
theorem Valid.append (h : Valid memory sb) (hmem : Memory memory) (data : List (Option Char))
    (len : ℕ) (hlen : data.length+1 ≤ len) (hmax : len ≤ 2^63) :
    Ends memory (sb.size+len+maxBuf) (Appended memory sb data)
      (stringbufferEnsure memory sb len >>= fun sb => return appendCells sb data) := by
  have hroom := h.room
  apply (h.ensure hmem len hmax).bind (by omega)
  intro sb' hensured hsize
  refine Or.inr ⟨_, rfl, hensured.append data hlen, ?_⟩
  have hsame : (appendCells sb' data).size = sb'.size := rfl
  omega

theorem length_vsnprintfText (formatted : List Char) (size : ℕ) :
    (vsnprintfText formatted size).length ≤ size := by
  unfold vsnprintfText
  split_ifs with h0
  · exact Nat.zero_le _
  · rw [List.length_map, List.length_append, List.length_take, List.length_singleton]
    omega

/-- Printing leaves the text before the position as it is. -/
theorem Ensured.print {size : ℕ} (h : Ensured memory sb size sb') (formatted : List Char) :
    Valid memory (printInto sb' formatted size) ∧
      (printInto sb' formatted size).buf.take sb.pos = sb.buf.take sb.pos := by
  have halloc := h.allocated
  have hfits := h.fits
  have hpos := h.pos_eq
  have hlen := length_vsnprintfText formatted size
  refine ⟨⟨?_, h.room, h.granted⟩, ?_⟩
  · dsimp only [printInto]
    rw [length_writeAt _ _ _ (by omega)]
    exact halloc
  · dsimp only [printInto]
    rw [hpos, take_writeAt _ _ _ (by omega), h.cells_eq]

/-- With room for all that the format gives, counting it appends it. -/
theorem Ensured.print_fits {size : ℕ} (h : Ensured memory sb size sb') (formatted : List Char)
    (hfits : formatted.length < size) :
    Appended memory sb (formatted.map some) { printInto sb' formatted size with
      pos := (printInto sb' formatted size).pos+formatted.length } := by
  have halloc := h.allocated
  have hroom := h.fits
  have hpos := h.pos_eq
  have hlen := length_vsnprintfText formatted size
  have hall : formatted.take (size-1) = formatted := List.take_of_length_le (by omega)
  have htext : (vsnprintfText formatted size).take formatted.length = formatted.map some := by
    rw [vsnprintfText, if_neg (by omega), hall, ← List.map_take, List.take_left]
  have hcount : formatted.length ≤ (vsnprintfText formatted size).length := by
    rw [vsnprintfText, if_neg (by omega), hall, List.length_map, List.length_append]
    omega
  refine ⟨⟨(h.print formatted).1.allocated, ?_, h.granted⟩, ?_⟩
  · dsimp only [printInto]
    omega
  · dsimp only [printInto]
    rw [take_add_writeAt _ _ _ _ (by omega) hcount, htext, hpos, h.cells_eq]

/-- A round that has room for the text appends it and leaves the loop. -/
theorem printfRound_fits (h : Valid memory sb) (hmem : Memory memory) (formatted : List Char)
    (size : ℕ) (hsize : size ≤ 2^63) (hmax : formatted.length ≤ intMax)
    (hfits : formatted.length < size) :
    ∃ r, printfRound memory formatted (size, sb) = .inr r ∧
      Ends memory (max sb.size (sb.pos+size+maxBuf)) (Appended memory sb (formatted.map some)) r := by
  unfold printfRound vsnprintfLength
  dsimp only
  rcases h.ensure hmem size hsize with ⟨habort, hlt⟩ | ⟨mid, hmid, hensured, hle⟩
  · rw [habort]
    exact ⟨_, rfl, Or.inl ⟨rfl, hlt⟩⟩
  · rw [hmid]
    dsimp only
    rw [if_pos hmax]
    dsimp only
    rw [if_pos hfits]
    exact ⟨_, rfl, Or.inr ⟨_, rfl, hensured.print_fits formatted hfits, hle⟩⟩

/-- The buffer after a round in which the text has not been appended. -/
structure Tried (memory : ℕ) (sb : Buffer) (size : ℕ) (mid : Buffer) : Prop
    extends Valid memory mid where
  pos_eq : mid.pos = sb.pos
  fits : sb.pos+size ≤ mid.size
  grown : mid.size ≤ max sb.size (sb.pos+size+maxBuf)
  cells_eq : mid.buf.take mid.pos = sb.buf.take sb.pos

/-- A round without room for the text, or with a text that an `int` cannot count. -/
theorem printfRound_short (h : Valid memory sb) (hmem : Memory memory) (formatted : List Char)
    (size : ℕ) (hsize : size ≤ 2^63)
    (hshort : size ≤ formatted.length ∨ intMax < formatted.length) :
    (printfRound memory formatted (size, sb) = .inr (.error .aborted) ∧
        memory < sb.pos+size+maxBuf) ∨
      ∃ mid, Tried memory sb size mid ∧ printfRound memory formatted (size, sb) =
        if formatted.length < intMax then .inl (formatted.length+1, mid)
        else if formatted.length = intMax then .inr (.error .overflowed)
        else .inl (size*2%2^64, mid) := by
  unfold printfRound vsnprintfLength
  dsimp only
  rcases h.ensure hmem size hsize with ⟨habort, hlt⟩ | ⟨mid, hmid, hensured, hle⟩
  · left
    rw [habort]
    have hgranted := h.granted
    exact ⟨rfl, by omega⟩
  · right
    rw [hmid]
    obtain ⟨hvalid, hcells⟩ := hensured.print formatted
    refine ⟨_, ⟨hvalid, hensured.pos_eq, hensured.fits, hle, ?_⟩, ?_⟩
    · rw [show (printInto mid formatted size).pos = sb.pos from hensured.pos_eq, hcells]
    dsimp only
    by_cases hcounts : formatted.length ≤ intMax
    · have hnot : ¬ formatted.length < size := by omega
      rw [if_pos hcounts]
      dsimp only
      rw [if_neg hnot]
      by_cases hmax : formatted.length = intMax
      · rw [if_pos hmax, if_neg (by omega), if_pos hmax]
      · rw [if_neg hmax, if_pos (by omega)]
    · rw [if_neg hcounts, if_neg (by omega), if_neg (by omega)]

/-- The second round has precisely the room that is needed. -/
theorem appendPrintf_appends (h : Valid memory sb) (hmem : Memory memory) (formatted : List Char)
    (hmax : formatted.length < intMax) (fuel : ℕ) :
    ∃ r, stringbufferAppendPrintf memory (fuel+2) sb formatted = some r ∧
      Ends memory (sb.size+max maxBuf (formatted.length+1)+maxBuf)
        (Appended memory sb (formatted.map some)) r := by
  have hroom := h.room
  have hint : intMax < 2^63 := by decide
  have hbuf : maxBuf ≤ 2^63 := by decide
  unfold stringbufferAppendPrintf
  by_cases hfits : formatted.length < maxBuf
  · obtain ⟨r, hround, hends⟩ := printfRound_fits h hmem formatted maxBuf hbuf hmax.le hfits
    exact ⟨r, FuelLoop.run_leave _ _ _ _ hround, hends.mono (by omega) fun _ happended => happended⟩
  rcases printfRound_short h hmem formatted maxBuf hbuf (Or.inl (by omega)) with
    ⟨hround, hlt⟩ | ⟨mid, hmid, hround⟩
  · exact ⟨_, FuelLoop.run_leave _ _ _ _ hround, Or.inl ⟨rfl, by omega⟩⟩
  · rw [if_pos hmax] at hround
    obtain ⟨r, hround', hends⟩ := printfRound_fits hmid.toValid hmem formatted
      (formatted.length+1) (by omega) hmax.le (Nat.lt_succ_self _)
    refine ⟨r, ?_, ?_⟩
    · rw [FuelLoop.run_continue _ _ _ _ hround, FuelLoop.run_leave _ _ _ _ hround']
    · have hgrown := hmid.grown
      have hpos := hmid.pos_eq
      apply hends.mono (by omega)
      rintro last ⟨hvalid, hcells⟩
      exact ⟨hvalid, by rw [hcells, hmid.cells_eq]⟩

/-- A text that is longer than an `int` can tell is tried for with twice the room. -/
theorem printfRound_long (h : Valid memory sb) (hmem : Memory memory) (formatted : List Char)
    (hmax : intMax < formatted.length) (size : ℕ) (hsize : size ≤ 2^63) :
    printfRound memory formatted (size, sb) = .inr (.error .aborted) ∨
      ∃ mid, Valid memory mid ∧ size ≤ mid.size ∧
        printfRound memory formatted (size, sb) = .inl (size*2%2^64, mid) := by
  rcases printfRound_short h hmem formatted size hsize (Or.inr hmax) with ⟨hround, _⟩ |
    ⟨mid, hmid, hround⟩
  · exact Or.inl hround
  · rw [if_neg (by omega), if_neg (by omega)] at hround
    have hfits := hmid.fits
    exact Or.inr ⟨mid, hmid.toValid, by omega, hround⟩

/-- Sooner or later there is no memory for that. -/
theorem appendPrintf_aborts (h : Valid memory sb) (hmem : Memory memory) (formatted : List Char)
    (hmax : intMax < formatted.length) (rounds : ℕ) (hrounds : rounds ≤ 63) (fuel : ℕ) :
    FuelLoop.run (printfRound memory formatted) (rounds+fuel+1) (2^(63-rounds), sb) =
      some (.error .aborted) := by
  have hmost := hmem.most
  have hbuf : 0 < maxBuf := by decide
  induction rounds generalizing sb with
  | zero =>
    rcases printfRound_long h hmem formatted hmax (2^63) le_rfl with hround | ⟨mid, hmid, hle, _⟩
    · exact FuelLoop.run_leave _ _ _ _ hround
    · -- half of the address space is too much
      have hgranted := hmid.granted
      omega
  | succ rounds ih =>
    have hsize : 2^(63-(rounds+1)) ≤ 2^63 := Nat.pow_le_pow_right (by decide) (Nat.sub_le _ _)
    have htwice : 2^(63-(rounds+1))*2%2^64 = 2^(63-rounds) := by
      have hexp : 63-rounds = 63-(rounds+1)+1 := by omega
      rw [hexp, ← Nat.pow_succ]
      exact Nat.mod_eq_of_lt (Nat.pow_lt_pow_right (by decide) (by omega))
    rcases printfRound_long h hmem formatted hmax _ hsize with hround | ⟨mid, hmid, _, hround⟩
    · exact FuelLoop.run_leave _ _ _ _ hround
    · rw [htwice] at hround
      rw [FuelLoop.run_continue _ _ _ _ hround, Nat.add_right_comm rounds 1 fuel]
      exact ih hmid (by omega)

theorem Valid.terminate (h : Valid memory sb) :
    Valid memory (terminate sb) ∧ (terminate sb).buf.take sb.pos = sb.buf.take sb.pos ∧
      (terminate sb).buf[sb.pos]? = some (some NUL) := by
  have halloc := h.allocated
  have hroom := h.room
  unfold StringBufferMemory.terminate
  refine ⟨⟨?_, hroom, h.granted⟩, take_writeAt _ _ _ (by omega), ?_⟩
  · dsimp only
    rw [length_writeAt _ _ _ (by rw [List.length_singleton]; omega)]
    exact halloc
  · have hlen : (sb.buf.take sb.pos).length = sb.pos := by rw [List.length_take]; omega
    rw [writeAt, List.append_assoc, List.getElem?_append_right hlen.le, hlen, Nat.sub_self]
    rfl

/-- What the calls make of the text: the source's own buffer, without its memory. -/
def Op.abstract (sb : StringBuffer) : Op → StringBuffer
  | .appendString str => Path.stringbufferAppendString sb str
  | .appendStringLen str len => Path.stringbufferAppendString sb (str.take len)
  | .appendChar c => Path.stringbufferAppendString sb [c]
  | .appendPrintf formatted => Path.stringbufferAppendString sb formatted
  | .appendStringbuffer sb2 =>
    Path.stringbufferAppendString sb ((sb2.buf.take sb2.pos).map (·.getD NUL))
  | .seek pos => Path.stringbufferSeek sb pos
  | .sub _ _ => sb

/-- What callers promise: strings that hold the length that is given, no format with `INT_MAX` or
more characters, and no buffer with cells in its text that were never written. -/
def Op.Proper (memory : ℕ) : Op → Prop
  | .appendString str => str.length < 2^63
  | .appendStringLen str len => len ≤ str.length ∧ str.length < 2^63
  | .appendPrintf formatted => formatted.length < intMax
  | .appendStringbuffer sb2 => ∃ text, Holds memory sb2 text
  | _ => True

/-- All seeks go back, or behind the end of the memory, where they are ignored. -/
def Op.Backward (sb : Buffer) : Op → Prop
  | .seek pos => pos ≤ sb.pos ∨ sb.size ≤ pos
  | _ => True

/-- By how much a call lets the memory of the buffer grow at most. -/
def Op.needs : Op → ℕ
  | .appendString str => str.length+1+maxBuf
  | .appendStringLen _ len => len+1+maxBuf
  | .appendChar _ => 1+1+maxBuf
  | .appendPrintf formatted => max maxBuf (formatted.length+1)+maxBuf
  | .appendStringbuffer sb2 => sb2.pos+1+maxBuf
  | .seek _ => 0
  | .sub _ _ => 0

theorem Appended.holds (h : Holds memory sb text) (added : List Char)
    (ha : Appended memory sb (added.map some) sb') : Holds memory sb' (text ++ added) := by
  obtain ⟨hvalid, hcells⟩ := ha
  refine ⟨hvalid, ?_⟩
  rw [hcells, h.cells, List.map_append]

theorem Holds.length_eq (h : Holds memory sb text) : sb.pos = text.length := by
  have hcells := congrArg List.length h.cells
  have halloc := h.allocated
  have hroom := h.room
  rw [List.length_take, List.length_map] at hcells
  omega

theorem Valid.seek (h : Valid memory sb) (pos : ℕ) : Valid memory (stringbufferSeek sb pos) := by
  unfold stringbufferSeek
  split_ifs with hin
  · exact ⟨h.allocated, hin, h.granted⟩
  · exact h

theorem stringbufferSeek_size (sb : Buffer) (pos : ℕ) :
    (stringbufferSeek sb pos).size = sb.size := by
  unfold stringbufferSeek
  split_ifs <;> rfl

theorem Holds.seek (h : Holds memory sb text) {pos : ℕ} (hback : pos ≤ sb.pos ∨ sb.size ≤ pos) :
    Holds memory (stringbufferSeek sb pos) (text.take pos) := by
  refine ⟨h.toValid.seek pos, ?_⟩
  have hpos := h.length_eq
  have hroom := h.room
  unfold stringbufferSeek
  split_ifs with hin
  · dsimp only
    have hle : pos ≤ sb.pos := by omega
    rw [List.map_take, ← h.cells, List.take_take, Nat.min_eq_left hle]
  · have hall : text.take pos = text := List.take_of_length_le (by omega)
    rw [hall]
    exact h.cells

/-- The text that a call puts behind the position. -/
def Op.added : Op → List (Option Char)
  | .appendString str => str.map some
  | .appendStringLen str len => (str.take len).map some
  | .appendChar c => [some c]
  | .appendPrintf formatted => formatted.map some
  | .appendStringbuffer sb2 => sb2.buf.take sb2.pos
  | .seek _ => []
  | .sub _ _ => []

/-- A call that is neither a seek nor a reading. -/
def Op.Appends : Op → Prop
  | .seek _ => False
  | .sub _ _ => False
  | _ => True

/-- Whatever is appended, the position stays within the memory. -/
theorem Valid.step_append (h : Valid memory sb) (hmem : Memory memory) (op : Op)
    (hop : op.Proper memory) (happends : op.Appends) (fuel : ℕ) :
    ∃ r, StringBufferMemory.step memory (fuel+2) sb op = some r ∧
      Ends memory (sb.size+op.needs) (Appended memory sb op.added) r := by
  cases op with
  | appendString str =>
    have hlt : str.length < 2^63 := hop
    have hends := h.append hmem (str.map some) (str.length+1) (by rw [List.length_map]) (by omega)
    refine ⟨_, rfl, ?_⟩
    unfold stringbufferAppendString stringbufferAppendStringLen
    rw [List.take_length]
    exact hends.mono (by rw [Op.needs]; omega) fun _ happended => happended
  | appendStringLen str len =>
    obtain ⟨hle, hlt⟩ : len ≤ str.length ∧ str.length < 2^63 := hop
    have hends := h.append hmem ((str.take len).map some) (len+1)
      (by rw [List.length_map, List.length_take]; omega) (by omega)
    exact ⟨_, rfl, hends.mono (by rw [Op.needs]; omega) fun _ happended => happended⟩
  | appendChar c =>
    have hends := h.append hmem [some c] (1+1) le_rfl (by decide)
    exact ⟨_, rfl, hends.mono (by rw [Op.needs]; omega) fun _ happended => happended⟩
  | appendPrintf formatted =>
    obtain ⟨r, hr, hends⟩ := appendPrintf_appends h hmem formatted hop fuel
    exact ⟨r, hr, hends.mono (by rw [Op.needs]; omega) fun _ happended => happended⟩
  | appendStringbuffer sb2 =>
    obtain ⟨text2, h2⟩ := hop
    have hroom := h2.room
    have hgranted := h2.granted
    have hmost := hmem.most
    have hends := h.append hmem (sb2.buf.take sb2.pos) (sb2.pos+1)
      (by rw [List.length_take]; omega) (by omega)
    exact ⟨_, rfl, hends.mono (by rw [Op.needs]; omega) fun _ happended => happended⟩
  | seek pos => exact happends.elim
  | sub start finish => exact happends.elim

/-- Whatever is called, the position stays within the memory. -/
theorem Valid.step (h : Valid memory sb) (hmem : Memory memory) (op : Op)
    (hop : op.Proper memory) (fuel : ℕ) :
    ∃ r, StringBufferMemory.step memory (fuel+2) sb op = some r ∧
      Ends memory (sb.size+op.needs) (Valid memory) r := by
  have happend (happends : op.Appends) :
      ∃ r, StringBufferMemory.step memory (fuel+2) sb op = some r ∧
        Ends memory (sb.size+op.needs) (Valid memory) r := by
    obtain ⟨r, hr, hends⟩ := h.step_append hmem op hop happends fuel
    exact ⟨r, hr, hends.mono le_rfl fun _ happended => happended.1⟩
  cases op with
  | seek pos =>
    exact ⟨_, rfl, Or.inr ⟨_, rfl, h.seek pos, (stringbufferSeek_size sb pos).le⟩⟩
  | sub start finish => exact ⟨_, rfl, Or.inr ⟨_, rfl, h.terminate.1, le_rfl⟩⟩
  | appendString | appendStringLen | appendChar | appendPrintf | appendStringbuffer =>
    exact happend trivial

/-- The text after an append is what the abstract buffer says. -/
theorem Op.abstract_added {op : Op} (happends : op.Appends) (hop : op.Proper memory) (text) :
    ∃ added, op.added = added.map some ∧ (op.abstract ⟨text⟩).data = text ++ added := by
  cases op with
  | appendString str => exact ⟨str, rfl, rfl⟩
  | appendStringLen str len => exact ⟨str.take len, rfl, rfl⟩
  | appendChar c => exact ⟨[c], rfl, rfl⟩
  | appendPrintf formatted => exact ⟨formatted, rfl, rfl⟩
  | appendStringbuffer sb2 =>
    obtain ⟨text2, h2⟩ := hop
    refine ⟨text2, h2.cells, ?_⟩
    have htext : (sb2.buf.take sb2.pos).map (·.getD NUL) = text2 := by
      rw [h2.cells, List.map_map]
      exact List.map_id text2
    rw [Op.abstract, htext]
    rfl
  | seek pos => exact happends.elim
  | sub start finish => exact happends.elim

/-- So it is after every call, unless a seek goes forward. -/
theorem Holds.step (h : Holds memory sb text) (hmem : Memory memory) (op : Op)
    (hop : op.Proper memory) (hback : op.Backward sb) (fuel : ℕ) :
    ∃ r, StringBufferMemory.step memory (fuel+2) sb op = some r ∧
      Ends memory (sb.size+op.needs) (Holds memory · (op.abstract ⟨text⟩).data) r := by
  have happend (happends : op.Appends) :
      ∃ r, StringBufferMemory.step memory (fuel+2) sb op = some r ∧
        Ends memory (sb.size+op.needs) (Holds memory · (op.abstract ⟨text⟩).data) r := by
    obtain ⟨r, hr, hends⟩ := h.toValid.step_append hmem op hop happends fuel
    obtain ⟨added, hadded, htext⟩ := Op.abstract_added happends hop text
    refine ⟨r, hr, hends.mono le_rfl fun sb' happended => ?_⟩
    rw [hadded] at happended
    rw [htext]
    exact happended.holds h added
  cases op with
  | seek pos =>
    exact ⟨_, rfl, Or.inr ⟨_, rfl, h.seek hback, (stringbufferSeek_size sb pos).le⟩⟩
  | sub start finish =>
    obtain ⟨hvalid, hcells, _⟩ := h.toValid.terminate
    exact ⟨_, rfl, Or.inr ⟨_, rfl, ⟨hvalid, hcells.trans h.cells⟩, le_rfl⟩⟩
  | appendString | appendStringLen | appendChar | appendPrintf | appendStringbuffer =>
    exact happend trivial

/-- A condition on the calls and on the buffers on which they are made. -/
def AllAlong (memory fuel : ℕ) (P : Buffer → Op → Prop) : Buffer → List Op → Prop
  | _, [] => True
  | sb, op :: ops =>
    P sb op ∧ ∀ sb', step memory fuel sb op = some (.ok sb') → AllAlong memory fuel P sb' ops

/-- What every call keeps, a run keeps. `x` is what the buffer stands for, and `f` what the calls
make of it. -/
theorem run_ends {β : Type} (I : β → Buffer → Prop) (f : β → Op → β) (P : Buffer → Op → Prop)
    (fuel : ℕ) (hstep : ∀ x sb op, I x sb → P sb op →
      ∃ r, step memory fuel sb op = some r ∧ Ends memory (sb.size+op.needs) (I (f x op)) r)
    (ops : List Op) (x : β) (sb : Buffer) (h : I x sb)
    (hops : AllAlong memory fuel P sb ops) :
    ∃ r, run memory fuel sb ops = some r ∧
      Ends memory (sb.size+(ops.map Op.needs).sum) (I (ops.foldl f x)) r := by
  induction ops generalizing x sb with
  | nil => exact ⟨_, rfl, Or.inr ⟨sb, rfl, h, Nat.le_add_right _ _⟩⟩
  | cons op ops ih =>
    obtain ⟨r, hr, hends⟩ := hstep x sb op h hops.1
    rw [run, hr, List.map_cons, List.sum_cons, List.foldl_cons]
    rcases hends with ⟨rfl, hlt⟩ | ⟨mid, rfl, hmid, hle⟩
    · exact ⟨_, rfl, Or.inl ⟨rfl, by omega⟩⟩
    · obtain ⟨r, hrun, hends⟩ := ih (f x op) mid hmid (hops.2 mid hr)
      exact ⟨r, hrun, hends.mono (by omega) fun _ hlast => hlast⟩

theorem allAlong_of_forall {P : Op → Prop} {ops : List Op} (h : ∀ op ∈ ops, P op) (fuel : ℕ)
    (sb : Buffer) : AllAlong memory fuel (fun _ op => P op) sb ops := by
  induction ops generalizing sb with
  | nil => trivial
  | cons op ops ih =>
    exact ⟨h op List.mem_cons_self, fun sb' _ => ih (fun op hop => h op (List.mem_cons_of_mem _ hop)) sb'⟩

theorem stringbufferNew_holds (hmem : Memory memory) : Holds memory stringbufferNew [] :=
  ⟨⟨List.length_replicate, by decide, hmem.least⟩, rfl⟩

theorem indexFrom_eq (buf : List (Option Char)) (c : Char) (data : List Char) (i : ℕ)
    (h : (buf.drop i).take data.length = data.map some) :
    indexFrom buf c data.length i = (data.findIdx? (· = c)).map (i+·) := by
  induction data generalizing i with
  | nil => rfl
  | cons x data ih =>
    rw [List.length_cons, List.map_cons] at h
    obtain ⟨hx, hrest⟩ : buf[i]? = some (some x) ∧
        (buf.drop (i+1)).take data.length = data.map some := by
      cases hd : buf.drop i with
      | nil =>
        rw [hd, List.take_nil] at h
        cases h
      | cons y rest =>
        rw [hd, List.take_succ_cons] at h
        obtain ⟨rfl, hrest⟩ := List.cons.inj h
        refine ⟨?_, ?_⟩
        · rw [← List.head?_drop, hd, List.head?_cons]
        · rw [← List.tail_drop, hd, List.tail_cons]
          exact hrest
    rw [List.length_cons, indexFrom, hx, List.findIdx?_cons]
    by_cases hc : x = c
    · rw [if_pos (by rw [hc]), hc]
      simp
    · rw [if_neg (by simpa using hc), ih (i+1) hrest]
      simp only [hc, decide_false, Bool.false_eq_true, if_false, Option.map_map]
      congr 1
      funext k
      simp only [Function.comp_apply]
      omega

theorem rindexFrom_eq (buf : List (Option Char)) (c : Char) (data : List Char) (n : ℕ)
    (hn : n ≤ data.length) (h : buf.take data.length = data.map some) :
    rindexFrom buf c n = Path.rindexFrom data c n := by
  induction n with
  | zero => rfl
  | succ i ih =>
    have hcell : buf[i]? = (data[i]?).map some := by
      rw [← List.getElem?_map, ← h, List.getElem?_take_of_lt (by omega)]
    rw [rindexFrom, Path.rindexFrom, ih (by omega), hcell]
    cases data[i]? with
    | none => rfl
    | some x => simp

theorem cString_append (text : List Char) (rest : List (Option Char)) :
    cString (text.map some ++ some NUL :: rest) = (text.takeWhile (· ≠ NUL)).map some := by
  induction text with
  | nil => simp [cString]
  | cons c text ih =>
    by_cases hc : c = NUL
    · simp [cString, hc]
    · rw [cString, List.map_cons, List.cons_append, List.takeWhile_cons_of_pos (by simpa using hc),
        List.takeWhile_cons_of_pos (by simpa using hc), List.map_cons, ← cString, ih]

/-- The string in the buffer ends where the position is, or at a NUL before it. -/
theorem cString_terminate (h : Holds memory sb text) :
    cString (terminate sb).buf = (text.takeWhile (· ≠ NUL)).map some := by
  obtain ⟨hvalid, hcells, hnul⟩ := h.toValid.terminate
  have hlt : sb.pos < (terminate sb).buf.length := (List.getElem?_eq_some_iff.mp hnul).1
  have hget : (terminate sb).buf[sb.pos] = some NUL := (List.getElem?_eq_some_iff.mp hnul).2
  have hsplit : (terminate sb).buf =
      text.map some ++ some NUL :: (terminate sb).buf.drop (sb.pos+1) := by
    rw [← h.cells, ← hcells, ← hget, ← List.drop_eq_getElem_cons hlt, List.take_append_drop]
  rw [hsplit, cString_append]

section Sub

variable {α : Type}

/-- A substring, by what is cut off at the end and then at the beginning. -/
theorem stringSub_eq (str : List α) (start finish : ℤ) :
    stringSub str start finish = (str.take (subEnd str.length finish).toNat).drop
      (subStart start (subEnd str.length finish)).toNat := by
  have hend : 0 ≤ subEnd str.length finish := by
    unfold subEnd
    split_ifs <;> omega
  have hstart : 0 ≤ subStart start (subEnd str.length finish) := by
    unfold subStart
    split_ifs <;> omega
  unfold stringSub
  dsimp only
  generalize subStart start (subEnd str.length finish) = s at hstart ⊢
  generalize subEnd str.length finish = e at hend ⊢
  split_ifs with hempty
  · symm
    apply List.drop_eq_nil_of_le
    rw [List.length_take]
    omega
  · rw [List.drop_take]
    by_cases hle : str.length-s.toNat ≤ (e-s).toNat
    · rw [Nat.min_eq_left hle, List.take_of_length_le (by rw [List.length_drop]),
        List.take_of_length_le (by rw [List.length_drop]; omega)]
    · have hsub : (e-s).toNat = e.toNat-s.toNat := by omega
      rw [Nat.min_eq_right (by omega), hsub]

theorem stringSub_map {β : Type} (f : α → β) (str : List α) (start finish : ℤ) :
    stringSub (str.map f) start finish = (stringSub str start finish).map f := by
  rw [stringSub_eq, stringSub_eq, List.length_map, List.map_drop, List.map_take]

/-- A string that is cut at an index, from whichever end it is counted, is whole again when its two
parts are joined; only 0 is no place to cut at, since it stands for the end as well. -/
theorem stringSub_cut (str : List α) (i : ℤ) (hi : i ≠ 0) :
    stringSub str 0 i ++ stringSub str i 0 = str := by
  have hfirst : (subStart 0 (subEnd str.length i)).toNat = 0 := rfl
  have hwhole : subEnd str.length 0 = str.length := by
    unfold subEnd
    split_ifs <;> omega
  rw [stringSub_eq, stringSub_eq, hfirst, hwhole, List.drop_zero, Int.toNat_natCast,
    List.take_length]
  rcases Int.lt_or_gt_of_ne hi with hneg | hpos
  · have hsame : subEnd str.length i = subStart i str.length := by
      unfold subEnd subStart
      rw [if_pos (by omega), if_pos hneg]
    rw [hsame, List.take_append_drop]
  · have hend : subEnd str.length i = i := by
      unfold subEnd
      rw [if_neg (by omega)]
    have hstart : subStart i str.length = i := by
      unfold subStart
      rw [if_neg (by omega)]
    rw [hend, hstart, List.take_append_drop]

theorem stringSub_cut_word :
    stringSub ['a', 'b', 'c'] 0 (-1) ++ stringSub ['a', 'b', 'c'] (-1) 0 = ['a', 'b', 'c'] :=
  stringSub_cut ['a', 'b', 'c'] (-1) (by decide)

end Sub

/-- However the calls on a new buffer are ordered, and wherever they seek to, they come back with a
position below the size of the memory, or the program has been ended because there is not the memory
that they need. -/
theorem stringbuffer_position_bounded (memory : ℕ) (hmem : Memory memory) (ops : List Op)
    (hops : ∀ op ∈ ops, op.Proper memory) :
    ∃ r, run memory 2 stringbufferNew ops = some r ∧
      ((r = .error .aborted ∧ memory < maxBuf+(ops.map Op.needs).sum) ∨
        ∃ sb, r = .ok sb ∧ sb.buf.length = sb.size ∧ sb.pos < sb.size ∧ sb.size ≤ memory) := by
  obtain ⟨r, hrun, hends⟩ := run_ends (fun _ : Unit => Valid memory) (fun _ _ => ())
    (fun _ op => op.Proper memory) 2 (fun _ sb op h hop => h.step hmem op hop 0) ops ()
    stringbufferNew (stringbufferNew_holds hmem).toValid (allAlong_of_forall hops 2 _)
  refine ⟨r, hrun, ?_⟩
  rcases hends with hno | ⟨sb, hr, hvalid, _⟩
  · exact Or.inl hno
  · exact Or.inr ⟨sb, hr, hvalid.allocated, hvalid.room, hvalid.granted⟩

theorem stringbuffer_position_bounded_seek :
    ∃ sb, run 1536 2 stringbufferNew [.appendChar 'a', .seek 300, .seek 255, .appendString ['b']] =
      some (.ok sb) ∧ sb.buf.length = sb.size ∧ sb.pos < sb.size ∧ sb.size ≤ 1536 := by
  obtain ⟨r, hrun, ⟨_, hno⟩ | ⟨sb, rfl, hsb⟩⟩ := stringbuffer_position_bounded 1536
    ⟨by decide, by decide⟩ [.appendChar 'a', .seek 300, .seek 255, .appendString ['b']]
    (by simp [Op.Proper])
  · exact absurd hno (by decide)
  · exact ⟨sb, hrun, hsb⟩

/-- As long as no call seeks forward, the memory stands for the buffer without a memory, and what
is read from it is what the text says. -/
theorem stringbuffer_refines (memory : ℕ) (hmem : Memory memory) (ops : List Op)
    (hops : AllAlong memory 2 (fun sb op => op.Proper memory ∧ op.Backward sb) stringbufferNew ops) :
    ∃ r, run memory 2 stringbufferNew ops = some r ∧
      ((r = .error .aborted ∧ memory < maxBuf+(ops.map Op.needs).sum) ∨
        ∃ sb, r = .ok sb ∧
          let text := (ops.foldl Op.abstract {}).data
          let string := text.takeWhile (· ≠ NUL)
          sb.pos = Path.stringbufferLength ⟨text⟩ ∧
          (∀ c, stringbufferIndex sb c = text.findIdx? (· = c)) ∧
          (∀ c, stringbufferRindex sb c = Path.stringbufferRindex ⟨text⟩ c) ∧
          stringbufferFinish sb = string.map some ∧
          ∀ start finish, (stringbufferSub sb start finish).2 =
            (stringSub string start finish).map some) := by
  obtain ⟨r, hrun, hends⟩ := run_ends (fun text sb => Holds memory sb text.data) Op.abstract
    (fun sb op => op.Proper memory ∧ op.Backward sb) 2
    (fun text sb op h hop => h.step hmem op hop.1 hop.2 0) ops {} stringbufferNew
    (stringbufferNew_holds hmem) hops
  refine ⟨r, hrun, ?_⟩
  rcases hends with hno | ⟨sb, hr, hend, _⟩
  · exact Or.inl hno
  have hcells := hend.cells
  rw [hend.length_eq] at hcells
  refine Or.inr ⟨sb, hr, hend.length_eq, ?_, ?_, cString_terminate hend, ?_⟩
  · intro c
    rw [stringbufferIndex, hend.length_eq, indexFrom_eq sb.buf c _ 0 (by rwa [List.drop_zero])]
    simp
  · intro c
    rw [stringbufferRindex, hend.length_eq]
    exact rindexFrom_eq sb.buf c _ _ le_rfl hcells
  · intro start finish
    rw [stringbufferSub, cString_terminate hend, stringSub_map]

theorem stringbuffer_refines_seek :
    ∃ sb, run 4096 2 stringbufferNew [.appendString ['a', '/', 'b'], .seek 1, .appendChar 'c'] =
        some (.ok sb) ∧ sb.pos = 2 ∧ stringbufferFinish sb = [some 'a', some 'c'] := by
  obtain ⟨r, hrun, ⟨_, hno⟩ | ⟨sb, rfl, hpos, _, _, hfinish, _⟩⟩ :=
    stringbuffer_refines 4096 ⟨by decide, by decide⟩
      [.appendString ['a', '/', 'b'], .seek 1, .appendChar 'c'] (by
        refine ⟨⟨by simp [Op.Proper], trivial⟩, fun sb hsb => ⟨⟨trivial, Or.inl ?_⟩,
          fun _ _ => ⟨⟨trivial, trivial⟩, fun _ _ => trivial⟩⟩⟩
        rw [← Except.ok.inj (Option.some.inj hsb)]
        decide)
  · exact absurd hno (by decide)
  · exact ⟨sb, hrun, hpos, hfinish⟩

/-- Appending what a format gives ends in any case: with the text, where `n + 1` is not an `int`, or
for lack of memory. It comes back only with less than `INT_MAX` characters, and then it does so if
there is the memory for them. -/
theorem append_printf_iff (memory : ℕ) (hmem : Memory memory) (sb : Buffer)
    (text formatted : List Char) (h : Holds memory sb text) :
    ∃ r, stringbufferAppendPrintf memory 57 sb formatted = some r ∧
      (∀ sb', r = .ok sb' → formatted.length < intMax ∧ Holds memory sb' (text ++ formatted)) ∧
      (r = .error .overflowed → formatted.length = intMax) ∧
      (sb.size+(Op.appendPrintf formatted).needs ≤ memory →
        ((∃ sb', r = .ok sb') ↔ formatted.length < intMax) ∧
        (r = .error .overflowed ↔ formatted.length = intMax)) := by
  rcases Nat.lt_trichotomy formatted.length intMax with hlt | heq | hgt
  · obtain ⟨r, hr, hends⟩ := appendPrintf_appends h.toValid hmem formatted hlt 55
    refine ⟨r, hr, ?_⟩
    rcases hends with ⟨rfl, hno⟩ | ⟨sb', rfl, happended, _⟩
    · refine ⟨nofun, nofun, fun hle => ?_⟩
      rw [Op.needs] at hle
      omega
    · refine ⟨?_, nofun, fun _ => ⟨⟨fun _ => hlt, fun _ => ⟨sb', rfl⟩⟩, nofun, fun he => ?_⟩⟩
      · intro last hlast
        rw [← Except.ok.inj hlast]
        exact ⟨hlt, happended.holds h formatted⟩
      · omega
  · have hbuf : maxBuf ≤ 2^63 := by decide
    have hint : maxBuf ≤ intMax := by decide
    rcases printfRound_short h.toValid hmem formatted maxBuf hbuf (Or.inl (by omega)) with
      ⟨hround, hno⟩ | ⟨mid, _, hround⟩
    · refine ⟨_, FuelLoop.run_leave _ _ _ _ hround, nofun, nofun, fun hle => ?_⟩
      have hroom := h.room
      rw [Op.needs] at hle
      omega
    · rw [if_neg (by omega), if_pos heq] at hround
      refine ⟨_, FuelLoop.run_leave _ _ _ _ hround, nofun, fun _ => heq, fun _ => ⟨?_, ?_⟩⟩
      · exact ⟨fun hno => (by obtain ⟨_, hno⟩ := hno; cases hno),
          fun hno => absurd heq (Nat.ne_of_lt hno)⟩
      · exact ⟨fun _ => heq, fun _ => rfl⟩
  · have hr := appendPrintf_aborts h.toValid hmem formatted hgt 55 (by decide) 1
    refine ⟨_, hr, nofun, nofun, fun _ => ⟨?_, ?_⟩⟩
    · exact ⟨fun hno => (by obtain ⟨_, hno⟩ := hno; cases hno),
        fun hno => absurd hgt (Nat.not_lt_of_lt hno)⟩
    · exact ⟨nofun, fun hno => absurd hno (Nat.ne_of_gt hgt)⟩

theorem append_printf_iff_new :
    ∃ r, stringbufferAppendPrintf 4096 57 stringbufferNew ['a'] = some r ∧
      ((∃ sb', r = .ok sb') ↔ ['a'].length < intMax) := by
  obtain ⟨r, hr, _, _, hiff⟩ := append_printf_iff 4096 ⟨by decide, by decide⟩ stringbufferNew []
    ['a'] (stringbufferNew_holds ⟨by decide, by decide⟩)
  exact ⟨r, hr, (hiff (by decide)).1⟩

end LibAtrinik.StringBufferMemory

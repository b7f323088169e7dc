import Mathlib.Data.List.Basic

/-! Reading from a buffered stream of the C library, character by character. Reading may fail after
a number of characters, and the stream remembers that it has failed or come to its end. -/
namespace StdioStream

structure Stream where
  rest : List UInt8
  /-- Reading fails when so many more characters have been read. -/
  failsAfter : Option ℕ := none
  eof : Bool := false
  error : Bool := false
deriving DecidableEq, Repr

def newline : UInt8 := 10

def getc (s : Stream) : Option UInt8 × Stream :=
  if s.failsAfter = some 0 then (none, { s with error := true })
  else
    match s.rest with
    | [] => (none, { s with eof := true })
    | c::rest => (some c, { s with rest := rest, failsAfter := s.failsAfter.map (·-1) })

/-- Up to `n` characters. -/
def fread : ℕ → Stream → List UInt8 × Stream
  | 0, s => ([], s)
  | n+1, s =>
    match getc s with
    | (none, s) => ([], s)
    | (some c, s) => (c::(fread n s).1, (fread n s).2)

/-- Up to `n` characters, and none behind a newline. -/
def getLine : ℕ → Stream → List UInt8 × Stream
  | 0, s => ([], s)
  | n+1, s =>
    match getc s with
    | (none, s) => ([], s)
    | (some c, s) =>
      if c = newline then ([c], s) else (c::(getLine n s).1, (getLine n s).2)

/-- What is stored before the terminator; `none` at the end of the stream and after a failure. -/
def fgets (size : ℕ) (s : Stream) : Option (List UInt8) × Stream :=
  let (line, s) := getLine (size-1) s
  (if line = [] ∨ s.error then none else some line, s)

/-- The characters before the terminator are written. -/
def fputs (buf : List UInt8) : List UInt8 := buf.takeWhile (· ≠ 0)

/-- Reading from this stream does not fail. -/
structure Sound (s : Stream) : Prop where
  failsAfter : s.failsAfter = none
  error : s.error = false

variable {s : Stream}

theorem getc_nil (h : Sound s) (hrest : s.rest = []) : getc s = (none, { s with eof := true }) := by
  rw [getc, h.failsAfter, if_neg (by simp), hrest]

theorem getc_cons (h : Sound s) {c : UInt8} {rest : List UInt8} (hrest : s.rest = c::rest) :
    getc s = (some c, { s with rest := rest }) := by
  obtain ⟨_, failsAfter, _, _⟩ := s
  obtain rfl : failsAfter = none := h.failsAfter
  obtain rfl : _ = c::rest := hrest
  rfl

/-- What is read, and that the end is noticed when there is not enough. -/
theorem fread_spec (h : Sound s) (n : ℕ) :
    (fread n s).1 = s.rest.take n ∧ (fread n s).2.rest = s.rest.drop n ∧ Sound (fread n s).2 ∧
      ((fread n s).2.eof = true ↔ s.eof = true ∨ s.rest.length < n) := by
  induction n generalizing s with
  | zero => exact ⟨rfl, rfl, h, by simp [fread]⟩
  | succ n ih =>
    cases hrest : s.rest with
    | nil =>
      rw [fread, getc_nil h hrest]
      exact ⟨rfl, hrest, ⟨h.failsAfter, h.error⟩, by simp⟩
    | cons c rest =>
      have hnext : Sound { s with rest := rest } := ⟨h.failsAfter, h.error⟩
      obtain ⟨hdata, hleft, hsound, heof⟩ := ih hnext
      rw [fread, getc_cons h hrest]
      refine ⟨congrArg (c :: ·) hdata, hleft, hsound, heof.trans ?_⟩
      rw [List.length_cons, Nat.add_lt_add_iff_right]

/-- A line and what is left are what there was. -/
theorem getLine_spec (h : Sound s) (n : ℕ) :
    (getLine n s).1 ++ (getLine n s).2.rest = s.rest ∧ Sound (getLine n s).2 ∧
      (0 < n → s.rest ≠ [] → (getLine n s).1 ≠ []) := by
  induction n generalizing s with
  | zero => exact ⟨rfl, h, fun hn => absurd hn (Nat.lt_irrefl 0)⟩
  | succ n ih =>
    cases hrest : s.rest with
    | nil =>
      rw [getLine, getc_nil h hrest]
      exact ⟨hrest, ⟨h.failsAfter, h.error⟩, fun _ hno => absurd rfl hno⟩
    | cons c rest =>
      have hnext : Sound { s with rest := rest } := ⟨h.failsAfter, h.error⟩
      obtain ⟨happend, hsound, -⟩ := ih hnext
      rw [getLine, getc_cons h hrest]
      by_cases hc : c = newline
      · simp only [if_pos hc]
        exact ⟨rfl, hnext, fun _ _ => List.cons_ne_nil _ _⟩
      · simp only [if_neg hc]
        exact ⟨congrArg (c :: ·) happend, hsound, fun _ _ => List.cons_ne_nil _ _⟩

end StdioStream

import LibAtrinik.FuelLoop
import LibAtrinik.LexicalPath

/-! The text of paths in `path.c`: `path_normalize` with the word splitter and the string buffer
that it works on, and `path_is_safe_relative`. Strings are lists of characters without the
terminator, and the end of a list is where the source finds the terminator. A character stands for
one `char`, so that lengths are in bytes. -/
namespace LibAtrinik.Path

def maxBuf : ℕ := 256

/-- Skips delimiters: the rest of the string, and the position in it. -/
def skipDelim (delim : Char) : List Char → ℕ → List Char × ℕ
  | [], pos => ([], pos)
  | c::str, pos => if c = delim then skipDelim delim str (pos+1) else (c::str, pos)

/-- Reads up to a delimiter that is not surrounded. What `word` has no room for is skipped. -/
def readWord (delim : Char) (wordsize : ℕ) (surround : Option Char) :
    List Char → ℕ → Bool → List Char → List Char × ℕ × List Char
  | [], pos, _, word => ([], pos, word)
  | c::str, pos, inSurround, word =>
    if c ≠ delim ∨ inSurround then
      if some c = surround then readWord delim wordsize surround str (pos+1) (!inSurround) word
      else if word.length < wordsize - 1 then
        readWord delim wordsize surround str (pos+1) inSurround (word++[c])
      else readWord delim wordsize surround str (pos+1) inSurround word
    else (c::str, pos, word)

/-- The word, or `none` when it is empty, and the new position. A `surround` of `0` in the source
is `none` here: it is equal to no character. -/
def stringGetWord (str : Option (List Char)) (pos : ℕ) (delim : Char) (wordsize : ℕ)
    (surround : Option Char) : Option (List Char) × ℕ :=
  match str with
  | none => (none, pos)
  | some str =>
    let (rest, pos) := skipDelim delim (str.drop pos) pos
    let (rest, pos, word) := readWord delim wordsize surround rest pos false []
    let (_, pos) := skipDelim delim rest pos
    (if word = [] then none else some word, pos)

structure StringBuffer where
  data : List Char := []
deriving DecidableEq, Repr

def stringbufferAppendString (sb : StringBuffer) (str : List Char) : StringBuffer :=
  { data := sb.data ++ str }

def stringbufferLength (sb : StringBuffer) : ℕ := sb.data.length

/-- Seeks backwards; what is after the position is written over later. -/
def stringbufferSeek (sb : StringBuffer) (pos : ℕ) : StringBuffer := { data := sb.data.take pos }

/-- The loop of `stringbuffer_rindex`, from `i` down. -/
def rindexFrom (data : List Char) (c : Char) : ℕ → Option ℕ
  | 0 => none
  | i+1 => if data[i]? = some c then some i else rindexFrom data c i

def stringbufferRindex (sb : StringBuffer) (c : Char) : Option ℕ :=
  rindexFrom sb.data c (stringbufferLength sb)

def stringbufferFinish (sb : StringBuffer) : List Char := sb.data

def stringIsempty (str : Option (List Char)) : Bool := str = none ∨ str = some []

def stringStartswith (str cmp : List Char) : Bool :=
  if stringIsempty (some str) || stringIsempty (some cmp) then false else cmp.isPrefixOf str

/-- The buffer, and how often the message about the missing slash was logged. -/
structure Normalizing where
  sb : StringBuffer
  bugs : ℕ := 0
deriving DecidableEq, Repr

/-- What is preserved of the beginning of the path. -/
def normalizeStart (path : List Char) : StringBuffer :=
  if stringStartswith path ['/'] then stringbufferAppendString {} ['/']
  else if stringStartswith path ['.','/'] then stringbufferAppendString {} ['.','/']
  else {}

/-- The body of the loop for one component. -/
def normalizeComponent (startsbpos : ℕ) (s : Normalizing) (component : List Char) : Normalizing :=
  if component = ['.'] then s
  else if component = ['.','.'] then
    -- Nothing of what is preserved of the beginning is removed, but for its last slash.
    if stringbufferLength s.sb > startsbpos then
      match stringbufferRindex s.sb '/' with
      | none => { s with bugs := s.bugs+1 }
      | some lastSlash => { s with sb := stringbufferSeek s.sb lastSlash }
    else s
  else
    -- A slash also comes in front of the first component of a relative path.
    let len := stringbufferLength s.sb
    let sb := if len = 0 ∨ s.sb.data[len-1]? ≠ some '/' then stringbufferAppendString s.sb ['/']
      else s.sb
    { s with sb := stringbufferAppendString sb component }

/-- One round of the loop, from a position in the path. -/
def normalizeRound (path : List Char) (startsbpos : ℕ) (s : ℕ × Normalizing) :
    (ℕ × Normalizing) ⊕ Normalizing :=
  match stringGetWord (some path) s.1 '/' maxBuf none with
  | (none, _) => .inr s.2
  | (some component, pos) => .inl (pos, normalizeComponent startsbpos s.2 component)

/-- The normalized path and the number of logged bugs. -/
structure Normalized where
  text : List Char
  bugs : ℕ
deriving DecidableEq, Repr

/-- With at most `fuel` rounds of the loop. -/
def pathNormalize (fuel : ℕ) (path : Option (List Char)) : Option Normalized :=
  match path with
  | none => some ⟨['.'],0⟩
  | some path =>
    if stringIsempty (some path) then some ⟨['.'],0⟩
    else do
      let sb := normalizeStart path
      let s ← FuelLoop.run (normalizeRound path (stringbufferLength sb)) fuel (0, { sb := sb })
      let sb := if stringbufferLength s.sb = 0 then stringbufferAppendString s.sb ['.'] else s.sb
      some ⟨stringbufferFinish sb, s.bugs⟩

/-- The scan with `component` at the start of the current component, `length` characters of which
are behind `cp`. -/
def safeScan (component : List Char) (length : ℕ) : List Char → Bool
  | [] => !(length = 0 ∨ (length = 1 ∧ component[0]? = some '.') ∨
      (length = 2 ∧ component[0]? = some '.' ∧ component[1]? = some '.'))
  | c::cp =>
    if c = '\\' ∨ c = ':' then false
    else if c ≠ '/' then safeScan component (length+1) cp
    else if length = 0 ∨ (length = 1 ∧ component[0]? = some '.') ∨
        (length = 2 ∧ component[0]? = some '.' ∧ component[1]? = some '.') then false
    else safeScan cp 0 cp

def pathIsSafeRelative (path : Option (List Char)) : Bool :=
  match path with
  | none => false
  | some path =>
    if path = [] ∨ path.head? = some '/' ∨ path.head? = some '\\' then false
    else safeScan path 0 path

end LibAtrinik.Path

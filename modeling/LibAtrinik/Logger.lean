import LibAtrinik.PathNormalize
import LibAtrinik.SignedSelection

/-! The logger of `logger.c`: two filters with a bit for each level, edited by texts, and messages
that are passed to the print function and written to the log file. Times, and the texts of messages,
come with the calls. -/
namespace LibAtrinik.Logging

open LibAtrinik.Path LexicalPath SignedSelection

def hugeBuf : ℕ := 4096

def snprintf (size : ℕ) (text : List Char) : List Char := text.take (size-1)

/-- In the C locale. -/
def strcasecmp (a b : List Char) : Bool := a.map Char.toLower = b.map Char.toLower

def loggerNames : List (List Char) :=
  ["CHAT", "INFO", "SYSTEM", "ERROR", "BUG", "DEBUG", "DEVEL", "PACKET", "DUMPRX", "DUMPTX",
    "HTTP"].map String.toList

/-- The number of levels, `LOG_MAX`. -/
def logMax : ℕ := 11

def logError : Fin logMax := ⟨3, by decide⟩

def logDumprx : Fin logMax := ⟨8, by decide⟩

def logDumptx : Fin logMax := ⟨9, by decide⟩

def logHttp : Fin logMax := ⟨10, by decide⟩

/-- The level with a name, or `LOG_MAX`. -/
def loggerGetLevel (name : List Char) : ℕ := loggerNames.findIdx fun n => strcasecmp n name

/-- `1U << level`, in 32 bits. -/
def levelMask (level : ℕ) : BitVec 32 := 1#32 <<< level

/-- The sign of a word, and the rest of it. -/
def wordOper : List Char → Option Bool × List Char
  | '-'::cp => (some false, cp)
  | '+'::cp => (some true, cp)
  | cp => (none, cp)

/-- The body of the loop. The masks get their 64 bits after the complement. -/
def filterWord (filter : BitVec 64) (word : List Char) : BitVec 64 :=
  let (oper, cp) := wordOper word
  if strcasecmp cp "all".toList then
    if oper.getD (filter = 0) then BitVec.allOnes 64 else 0
  else
    let level := loggerGetLevel cp
    if level ≥ logMax then filter
    else
      match oper with
      | none => filter ^^^ (levelMask level).setWidth 64
      | some false => filter &&& (~~~levelMask level).setWidth 64
      | some true => filter ||| (levelMask level).setWidth 64

def filterRound (str : Option (List Char)) (s : ℕ × BitVec 64) :
    (ℕ × BitVec 64) ⊕ BitVec 64 :=
  match stringGetWord str s.1 ',' maxBuf none with
  | (none, _) => .inr s.2
  | (some word, pos) => .inl (pos, filterWord s.2 word)

/-- With at most `fuel` rounds of the loop. -/
def loggerSetFilter (fuel : ℕ) (filter : BitVec 64) (str : Option (List Char)) :
    Option (BitVec 64) :=
  FuelLoop.run (filterRound str) fuel (0, filter)

/-- The arguments of `logger_print` behind the level, with what the format expands to, and the
text of the time. -/
structure Message where
  timebuf : List Char
  function : List Char
  line : ℕ
  text : List Char

/-- An escape sequence, if the terminal has colors. -/
def escSeq (colors : Bool) (seq : String) : List Char := if colors then seq.toList else []

/-- `%-6s`. -/
def padName (name : List Char) : List Char := name ++ List.replicate (6-name.length) ' '

def levelName (level : ℕ) : List Char := loggerNames.getD level []

def Message.formatted (m : Message) : List Char := snprintf hugeBuf m.text

/-- Where the message comes from. -/
def Message.origin (m : Message) : List Char :=
  '['::m.function ++ ':'::Nat.toDigits 10 m.line ++ [']']

/-- What is passed to the print function. -/
def Message.stdoutLine (m : Message) (colors : Bool) (level : ℕ) : List Char :=
  snprintf (3*hugeBuf)
    (escSeq colors "\x1b[1m" ++ m.timebuf ++ escSeq colors "\x1b[0m" ++
      escSeq colors "\x1b[31m" ++ padName (levelName level) ++ escSeq colors "\x1b[0m" ++ [' '] ++
      escSeq colors "\x1b[36m" ++ m.origin ++ escSeq colors "\x1b[0m" ++ [' '] ++
      escSeq colors "\x1b[33m" ++ m.formatted ++ escSeq colors "\x1b[0m" ++ ['\n'])

/-- What is written to the log file. -/
def Message.logfileLine (m : Message) (level : ℕ) : List Char :=
  m.timebuf ++ padName (levelName level) ++ [' '] ++ m.origin ++ [' '] ++ m.formatted ++ ['\n']

/-- The variables of the logger, with what was passed to the print function and what was written to
the log file, if one is open. -/
structure Logger where
  filterStdout : BitVec 64
  filterLogfile : BitVec 64
  colors : Bool
  printed : List (List Char)
  logFp : Option (List (List Char))

/-- `(1U << level) & filter`, as a condition. -/
def wanted (filter : BitVec 64) (level : ℕ) : Bool := (levelMask level).setWidth 64 &&& filter ≠ 0

def loggerPrint (s : Logger) (level : ℕ) (m : Message) : Logger :=
  if level ≥ logMax then s
  else if !wanted s.filterStdout level && !wanted s.filterLogfile level then s
  else
    let s :=
      if wanted s.filterStdout level then
        { s with printed := s.printed ++ [m.stdoutLine s.colors level] }
      else s
    match s.logFp with
    | none => s
    | some lines =>
      if wanted s.filterLogfile level then
        { s with logFp := some (lines ++ [m.logfileLine level]) }
      else s

inductive Call where
  | setFilterStdout (str : Option (List Char))
  | setFilterLogfile (str : Option (List Char))
  | openLog (opened : Bool)
  | print (level : ℕ) (message : Message)

/-- `logger_open_log` empties the file, if it can be opened. -/
def loggerCall (fuel : ℕ) (s : Logger) : Call → Option Logger
  | .setFilterStdout str => do
    let filter ← loggerSetFilter fuel s.filterStdout str
    some { s with filterStdout := filter }
  | .setFilterLogfile str => do
    let filter ← loggerSetFilter fuel s.filterLogfile str
    some { s with filterLogfile := filter }
  | .openLog opened => some { s with logFp := if opened then some [] else none }
  | .print level message => some (loggerPrint s level message)

/-- `toolkit_logger_init`. -/
def loggerInit (fuel : ℕ) (colors : Bool) : Option Logger := do
  let s : Logger := ⟨0, 0, colors, [], none⟩
  let s ← loggerCall fuel s (.setFilterStdout (some "all,-dumptx,-dumprx,-http".toList))
  loggerCall fuel s (.setFilterLogfile (some "all,-dumptx,-dumprx".toList))

/-- The logger after some calls. -/
def loggerRun (fuel : ℕ) (colors : Bool) (calls : List Call) : Option Logger := do
  let s ← loggerInit fuel colors
  calls.foldlM (loggerCall fuel) s

end LibAtrinik.Logging

import LibAtrinik.LiveHeap
import LibAtrinik.SocketRendezvous
import Mathlib.Data.List.DropRight

/-! The command line options of `clioptions.c`. Strings are lists of characters without the
terminator; a character stands for one `char`, so that lengths are in bytes. The values of the
options are strings on a heap, and the handlers are given with the options: what a handler does may
depend on all calls of handlers before. The messages that are only logged are left out. -/
namespace LibAtrinik.CliOptions

open LiveHeap Rendezvous ScanFormat

def hugeBuf : ℕ := 4096

/-- What comes from outside: the addresses of new strings, and the contents of a file as they are
after some calls of handlers. -/
structure Platform (Call : Type) where
  allocator : Allocator
  pathFileContents : List Call → List Char → Option (List Char)

/-- A finished call of the handler of an option: what it was given, and whether it succeeded. -/
structure Call where
  option : ℕ
  arg : Option (List Char)
  success : Bool
deriving DecidableEq, Repr

/-- `clioptions_handler_func`: whether it succeeds, and its error message. This kind of handler comes
back and leaves the options alone. -/
abbrev Handler := List Call → Option (List Char) → Bool × Option (List Char)

/-- `clioption_t`, without its descriptions. Its handler is of some kind `H`. -/
structure Clioption (H : Type := Handler) where
  name : List Char
  shortName : Option (List Char) := none
  handlerFunc : Option H := none
  argument : Bool := false
  changeable : Bool := false
  value : Option ℕ := none

structure State (H : Type := Handler) where
  clioptions : List (Clioption H)
  runtime : Bool
  heap : Heap (List Char)
  calls : List Call

/-- How the program can stop. -/
inductive Stop where
  | exit | fault
deriving DecidableEq, Repr

abbrev CliOf (H : Type) := EStateM Stop (State H)

abbrev Cli := CliOf Handler

section Strings

/-- The fields of `string_split`, with so many elements of the array left. -/
def splitFields (sep : Char) : ℕ → List Char → List (List Char)
  | 0, _ => []
  | 1, str => [str]
  | left+2, str =>
    match str.dropWhile (· ≠ sep) with
    | [] => [str]
    | _::rest => str.takeWhile (· ≠ sep) :: splitFields sep (left+1) rest

def stringSplit (str : List Char) (arraySize : ℕ) (sep : Char) : List (List Char) :=
  if str = [] then [] else splitFields sep arraySize str

def stringWhitespaceTrim (str : List Char) : List Char :=
  (str.rdropWhile isSpace).dropWhile isSpace

/-- The position of the first occurrence of `needle`. -/
def strstr (needle : List Char) : List Char → Option ℕ
  | [] => if needle = [] then some 0 else none
  | c::str => if needle.isPrefixOf (c::str) then some 0 else (strstr needle str).map (·+1)

/-- The loop of `string_newline_to_literal`, for a bounded number of rounds. -/
def newlineToLiteralLoop : ℕ → List Char → List Char
  | 0, str => str
  | fuel+1, str =>
    match strstr ['\\','n'] str with
    | none => str
    | some next => newlineToLiteralLoop fuel (str.take next ++ '\n'::str.drop (next+2))

/-- Every round makes the string shorter. -/
def stringNewlineToLiteral (str : List Char) : List Char := newlineToLiteralLoop str.length str

end Strings

section Find

variable {H : Type}

/-- `clioptions_parse_find`: the option with the new index and its argument, an option without the
argument that it requires, in which case the program exits, or nothing. -/
inductive Found where
  | option (cli : ℕ) (idx : ℕ) (cliArg : Option (List Char))
  | requiresArgument (cli : ℕ)
  | notFound
deriving DecidableEq, Repr

/-- Whether `strncmp` finds no difference in the first `n` characters. -/
def strncmpEq (s t : List Char) (n : ℕ) : Bool := s.take n = t.take n

/-- One round of the loop over the options, if it ends the loop. -/
def parseFindRound (argv : List (List Char)) (idx i : ℕ) (cli : Clioption H) : Option Found :=
  let check (idx : ℕ) (cliArg : Option (List Char)) : Option Found :=
    if cli.argument ∧ (cliArg = none ∨ cliArg = some []) then some (.requiresArgument i)
    else some (.option i idx cliArg)
  let text := argv.getD idx []
  if strncmpEq text ['-','-'] 2 then
    let arg := text.drop 2
    let nameEnd := (arg.takeWhile (· ≠ '=')).length
    let cliArg := if '=' ∈ arg then some (arg.drop (nameEnd+1)) else none
    -- Only as much is compared as was given: a longer name of an option is taken as well.
    if strncmpEq cli.name arg nameEnd then check idx cliArg else none
  else
    match cli.shortName with
    | none => none
    | some shortName =>
      if shortName ≠ text.drop 1 then none
      else if cli.argument ∧ idx+1 < argv.length then check (idx+1) argv[idx+1]?
      else check idx none

def parseFindFrom (argv : List (List Char)) (idx : ℕ) : ℕ → List (Clioption H) → Found
  | _, [] => .notFound
  | i, cli::clioptions =>
    match parseFindRound argv idx i cli with
    | some found => found
    | none => parseFindFrom argv idx (i+1) clioptions

def clioptionsParseFind (clioptions : List (Clioption H)) (argv : List (List Char)) (idx : ℕ) :
    Found := parseFindFrom argv idx 0 clioptions

end Find

/-- The loop that `clioptions_create` uses against duplicates. -/
def clioptionsCreate (name : List Char) (handlerFunc : Option Handler) : Cli ℕ := do
  let s ← get
  if ∃ cli ∈ s.clioptions, cli.name = name then throw .exit
  let cli : Clioption := { name := name, handlerFunc := handlerFunc }
  set { s with clioptions := s.clioptions ++ [cli] }
  return s.clioptions.length

section Values

variable {H : Type}

def free (p : Option ℕ) : CliOf H Unit := do
  match p with
  | none => pure ()
  | some address =>
    let s ← get
    match s.heap.free address with
    | none => throw .fault
    | some heap => set { s with heap := heap }

def xstrdup (m : Allocator) (str : List Char) : CliOf H ℕ := do
  let s ← get
  set { s with heap := s.heap.alloc m str }
  return m.malloc s.heap.live

def setValue (cli : ℕ) (value : Option ℕ) : CliOf H Unit :=
  modify fun s => { s with
    clioptions := s.clioptions.modify cli fun option => { option with value := value } }

/-- The new value of an option: the string with the contents of a file, if there is one, or a copy
of the argument. -/
def storeValue (m : Allocator) (i : ℕ) : Option ℕ → Option (List Char) → CliOf H Unit
  | some address, _ => setValue i (some address)
  | none, some arg => do
    let address ← xstrdup m arg
    setValue i (some address)
  | none, none => pure ()

/-- `clioptions_call_handler` after the handler has succeeded. -/
def replaceValue (m : Allocator) (i : ℕ) (value contents : Option ℕ) (cliArg : Option (List Char)) :
    CliOf H Unit := do
  -- The old value goes before it is known whether there is a new one.
  free value
  storeValue m i contents cliArg

def note (call : Call) : CliOf H Unit := modify fun s => { s with calls := s.calls ++ [call] }

/-- How a handler of this kind is called. -/
abbrev Caller (H : Type) := H → Option (List Char) → CliOf H (Bool × Option (List Char))

/-- `clioptions_call_handler` once it is known what the handler is given. The call is noted when the
handler has come back. -/
def finishCall (m : Allocator) (call : Caller H) (i : ℕ) (handlerFunc : H) (contents : Option ℕ)
    (cliArg : Option (List Char)) : CliOf H (Bool × Option (List Char)) := do
  let (success, errmsg) ← call handlerFunc cliArg
  note ⟨i, cliArg, success⟩
  if success then
    -- The handler may have changed the value itself, so that it is read only now.
    let s ← get
    replaceValue m i (s.clioptions[i]?.bind Clioption.value) contents cliArg
    return (true, errmsg)
  else
    free contents
    return (false, errmsg)

/-- With the error message. A missing option or handler is a fault: the callers check for both. -/
def clioptionsCallHandlerWith (p : Platform Call) (call : Caller H) (i : ℕ)
    (cliArg : Option (List Char)) : CliOf H (Bool × Option (List Char)) := do
  let s ← get
  match s.clioptions[i]? with
  | none => throw .fault
  | some cli =>
    match cli.handlerFunc with
    | none => throw .fault
    | some handlerFunc =>
      match cliArg with
      | some ('<'::path) =>
        -- The handler is given the contents of the file in place of its name.
        match p.pathFileContents s.calls path with
        | none => return (false, some ("Cannot open ".toList ++ path))
        | some text =>
          let contents ← xstrdup p.allocator text
          finishCall p.allocator call i handlerFunc (some contents) (some text)
      | cliArg => finishCall p.allocator call i handlerFunc none cliArg

end Values

section Calls

def callPlain : Caller Handler := fun handlerFunc cliArg => do
  let s ← get
  return handlerFunc s.calls cliArg

def clioptionsCallHandler (p : Platform Call) (i : ℕ) (cliArg : Option (List Char)) :
    Cli (Bool × Option (List Char)) := clioptionsCallHandlerWith p callPlain i cliArg

/-- The loop of `clioptions_parse` from index `i`, with at most `fuel` rounds. -/
def clioptionsParseLoop (p : Platform Call) (argv : List (List Char)) : ℕ → ℕ → Cli Unit
  | 0, _ => pure ()
  | fuel+1, i =>
    if i ≥ argv.length then pure ()
    else if argv.getD i [] = [] then clioptionsParseLoop p argv fuel (i+1)
    else do
      let s ← get
      match clioptionsParseFind s.clioptions argv i with
      | .notFound => throw .exit
      | .requiresArgument _ => throw .exit
      | .option cli idx cliArg =>
        if (s.clioptions[cli]?.bind Clioption.handlerFunc).isSome then
          let _ ← clioptionsCallHandler p cli cliArg
        clioptionsParseLoop p argv fuel (idx+1)

/-- The index grows with every round, so `argv` bounds the rounds. -/
def clioptionsParse (p : Platform Call) (argv : List (List Char)) : Cli Unit := do
  clioptionsParseLoop p argv argv.length 1
  modify fun s => { s with runtime := true }

variable {H : Type}

/-- What `clioptions_load_str` does with the option that it has looked up. -/
def loadFoundWith (p : Platform Call) (call : Caller H) (found : Found) :
    CliOf H (Bool × Option (List Char)) := do
  let s ← get
  match found with
  | .notFound => return (false, some "No such option".toList)
  | .requiresArgument _ => throw .exit
  | .option i _ cliArg =>
    match s.clioptions[i]? with
    | none => throw .fault
    | some cli =>
      if cli.handlerFunc.isNone then
        if s.runtime then
          return (false, some "Option doesn't have a handler function".toList)
        else return (true, none)
      else if s.runtime && !cli.changeable then
        return (false, some "Option is not changeable at runtime".toList)
      else clioptionsCallHandlerWith p call i cliArg

/-- With the error message. Only the second element of `argv` is ever read. -/
def clioptionsLoadStrWith (p : Platform Call) (call : Caller H) (str : List Char) :
    CliOf H (Bool × Option (List Char)) := do
  match stringSplit str 2 '=' with
  | [name,value] =>
    let name := stringWhitespaceTrim name
    let value := stringNewlineToLiteral (stringWhitespaceTrim value)
    -- What does not fit is cut off without notice.
    let buf := snprintf hugeBuf ("--".toList ++ name ++ "=".toList ++ value)
    let s ← get
    loadFoundWith p call (clioptionsParseFind s.clioptions [[],buf] 1)
  | _ => return (false, some "Option must be in the form of '<name> = <value>'".toList)

def clioptionsLoadStr (p : Platform Call) (str : List Char) : Cli (Bool × Option (List Char)) :=
  clioptionsLoadStrWith p callPlain str

end Calls

def freeValues : List Clioption → Cli Unit
  | [] => pure ()
  | cli::clioptions => do
    free cli.value
    freeValues clioptions

/-- The deinitialisation function. -/
def clioptionsDeinit : Cli Unit := do
  let s ← get
  freeValues s.clioptions
  modify fun s => { s with clioptions := [] }

def clioptionsGet (s : State) (name : List Char) : Option ℕ :=
  (s.clioptions.find? fun cli => cli.name = name).bind Clioption.value

end LibAtrinik.CliOptions

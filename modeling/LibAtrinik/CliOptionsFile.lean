import LibAtrinik.BufferedLines
import LibAtrinik.CliOptionsValues
import LibAtrinik.Logger

/-! Configuration files. The lines of a file are read through a buffer, and those of the section
that was asked for are loaded one after another. What a line asks for is known before any handler
is called: nothing, a call of one handler, or the end of the program. The handlers here may load
files themselves and end the program, as those of `--config` and `--help` do. -/
namespace LibAtrinik.CliOptions

open LiveHeap Rendezvous ScanFormat BufferedLines StatePrograms

def stringEndswith (str cmp : List Char) : Bool :=
  if str = [] ∨ cmp = [] then false else str.drop (str.length - cmp.length) = cmp

def fgets (size : ℕ) (fp : List Char) : List Char × List Char := readPiece '\n' (size-1) fp

/-- What `string_skip_whitespace` and `string_strip_newline` leave of the buffer. -/
def stripLine (buf : List Char) : List Char :=
  ((buf.takeWhile (· ≠ '\x00')).dropWhile isSpace).takeWhile (· ≠ '\n')

/-- What a handler does: it comes back, ends the program, or loads a file and goes on after it. -/
inductive Reply where
  | returns (success : Bool) (errmsg : Option (List Char))
  | exits
  | loads (path : List Char) (category : Option (List Char)) (next : Bool → List Call → Reply)

/-- A `clioptions_handler_func` of any kind, by the finished calls of handlers and its argument. -/
abbrev Routine := List Call → Option (List Char) → Reply

def runReply (load : List Char → Option (List Char) → CliOf Routine Bool) :
    Reply → CliOf Routine (Bool × Option (List Char))
  | .returns success errmsg => return (success, errmsg)
  | .exits => throw .exit
  | .loads path category next => do
    let success ← load path category
    let s ← get
    runReply load (next success s.calls)

def callRoutine (load : List Char → Option (List Char) → CliOf Routine Bool) : Caller Routine :=
  fun routine cliArg => do
    let s ← get
    runReply load (routine s.calls cliArg)

/-- The option requires an argument, so that there is one. -/
def clioptionsOptionConfig : Routine := fun _ arg =>
  .loads (arg.getD []) none fun success _ =>
    if success then .returns true none
    else .returns false (some ("Could not open configuration file: ".toList ++ arg.getD []))

/-- Every path through it ends in `exit(0)`, whatever it prints. -/
def clioptionsOptionHelp : Routine := fun _ _ => .exits

section Lines

variable {H : Type}

/-- One round of the loop of `clioptions_load`: the section it leaves. -/
def loadLine (p : Platform Call) (call : Caller H) (category : Option (List Char))
    (categoryCur buf : List Char) : CliOf H (List Char) := do
  let cp := stripLine buf
  if cp.head? = some '#' ∨ cp = [] then return categoryCur
  else if Path.stringStartswith cp ['['] && stringEndswith cp [']'] then
    return snprintf hugeBuf cp
  else if category.all fun category => Logging.strcasecmp category categoryCur then do
    -- An error is only logged.
    let _ ← clioptionsLoadStrWith p call cp
    return categoryCur
  else return categoryCur

/-- At most `fuel` rounds of the loop. -/
def loadLoop (p : Platform Call) (call : Caller H) (category : Option (List Char)) :
    ℕ → List Char → List Char → CliOf H Unit
  | 0, _, _ => pure ()
  | fuel+1, categoryCur, fp =>
    let (buf, fp) := fgets hugeBuf fp
    if buf = [] then pure ()
    else do
      let categoryCur ← loadLine p call category categoryCur buf
      loadLoop p call category fuel categoryCur fp

end Lines

/-- With the files that can be opened after some calls of handlers, and how many more may be open at
the same time: a file stays open while the handlers of its lines load others. A file does not change
while it is read, and every round reads something of it. -/
def clioptionsLoad (p : Platform Call) (fopen : List Call → List Char → Option (List Char)) :
    ℕ → List Char → Option (List Char) → CliOf Routine Bool
  | 0, _, _ => return false
  | limit+1, path, category => do
    let s ← get
    match fopen s.calls path with
    | none => return false
    | some fp =>
      loadLoop p (callRoutine (clioptionsLoad p fopen limit)) category fp.length [] fp
      return true

/-- The lines of a file, in pieces that fit into the buffer, without the white space in front. -/
def fileLines (file : List Char) : List (List Char) :=
  (cutLines '\n' (hugeBuf-1) file).map fun line => (line.takeWhile (· ≠ '\x00')).dropWhile isSpace

def isHeader (line : List Char) : Bool := line.head? = some '[' ∧ line.getLast? = some ']'

def isComment (line : List Char) : Bool := line = [] ∨ line.head? = some '#'

/-- The section after some lines. -/
def sectionAfter (lines : List (List Char)) : List Char :=
  ((lines.filter isHeader).getLast?).getD []

/-- A line that is loaded: one of the section that was asked for. -/
def chosen (category : Option (List Char)) (before : List (List Char)) (line : List Char) : Bool :=
  !isComment line && !isHeader line &&
    category.all fun category => Logging.strcasecmp category (sectionAfter before)

/-- The lines that are loaded, after those before. -/
def chosenAfter (category : Option (List Char)) (before : List (List Char)) :
    List (List Char) → List (List Char)
  | [] => []
  | line::lines =>
    if chosen category before line then line :: chosenAfter category (before ++ [line]) lines
    else chosenAfter category (before ++ [line]) lines

/-- What a line asks for. -/
inductive Order where
  | nothing
  | exit
  | call (option : ℕ) (arg : List Char)
deriving DecidableEq, Repr

section Orders

variable {H : Type}

/-- The line is for the first option whose name begins with the name before the first equals sign.
Of the value as much is passed on as fits into the buffer. -/
def orderOf (clioptions : List (Clioption H)) (runtime : Bool) (line : List Char) : Order :=
  if '=' ∉ line then .nothing
  else
    let name := stringWhitespaceTrim (line.takeWhile (· ≠ '='))
    let value := unescape (stringWhitespaceTrim ((line.dropWhile (· ≠ '=')).tail))
    match clioptions.findIdx? fun cli => name.isPrefixOf cli.name with
    | none => .nothing
    | some i =>
      match clioptions[i]? with
      | none => .nothing
      | some cli =>
        if cli.argument ∧ value = [] then .exit
        else if cli.handlerFunc.isNone || (runtime && !cli.changeable) then .nothing
        else .call i (value.take (hugeBuf-4-name.length))

/-- What the file asks for in the section, with what is registered. -/
def ordersOf (options : List (Clioption H) × Bool) (category : Option (List Char))
    (file : List Char) : List Order :=
  (chosenAfter category [] (fileLines file)).map (orderOf options.1 options.2)

def follow (p : Platform Call) (call : Caller H) : Order → CliOf H Unit
  | .nothing => pure ()
  | .exit => throw .exit
  | .call i arg => do
    let _ ← clioptionsCallHandlerWith p call i (some arg)

end Orders

theorem stringSplit_whole {line : List Char} (h : '=' ∉ line) :
    stringSplit line 2 '=' = [] ∨ stringSplit line 2 '=' = [line] := by
  have hdrop : line.dropWhile (· ≠ '=') = [] := by
    rw [List.dropWhile_eq_nil_iff]
    intro c hc
    exact decide_eq_true fun heq => h (heq ▸ hc)
  rw [stringSplit]
  split
  · exact Or.inl rfl
  · exact Or.inr (by rw [splitFields, hdrop])

/-- What is printed of a line: the whole name with a part of the value, or a part of the name. -/
theorem printedLine_cases (n v : List Char) :
    ((stringWhitespaceTrim n).length+3 < hugeBuf ∧ printedLine n v =
      longOption (stringWhitespaceTrim n) (some ((unescape (stringWhitespaceTrim v)).take
        (hugeBuf-4-(stringWhitespaceTrim n).length)))) ∨
    (hugeBuf ≤ (stringWhitespaceTrim n).length+3 ∧
      printedLine n v = longOption ((stringWhitespaceTrim n).take (hugeBuf-3)) none) := by
  rw [printedLine, snprintf]
  generalize stringWhitespaceTrim n = name
  generalize unescape (stringWhitespaceTrim v) = value
  by_cases hfits : name.length+3 < hugeBuf
  · -- The dashes, the name and the equals sign fit, and what is left is for the value.
    left
    refine ⟨hfits, ?_⟩
    obtain ⟨room, hroom⟩ : ∃ room, hugeBuf-1 = name.length+1+room+2 :=
      ⟨hugeBuf-4-name.length, by omega⟩
    have hcut : (name ++ '='::value).take (name.length+1+room) = name ++ '='::value.take room := by
      rw [Nat.add_assoc, List.take_length_add_append, Nat.add_comm 1, List.take_succ_cons]
    have hleft : hugeBuf-4-name.length = room := by omega
    rw [hroom, hleft]
    simp [longOption, hcut]
  · right
    refine ⟨Nat.le_of_not_lt hfits, ?_⟩
    have hsize : hugeBuf-1 = hugeBuf-3+2 := rfl
    have hroom : hugeBuf-3 ≤ name.length := by
      rw [hugeBuf] at hfits ⊢
      omega
    rw [hsize]
    simp [longOption, List.take_append_of_le_length hroom]

/-- Whether a name begins that of an option. -/
theorem orderOf_line {H : Type} {clioptions : List (Clioption H)} {n : List Char} (hn : '=' ∉ n) (runtime : Bool)
    (v : List Char) : orderOf clioptions runtime (n ++ '='::v) =
      match clioptions.findIdx? fun cli => (stringWhitespaceTrim n).isPrefixOf cli.name with
      | none => .nothing
      | some i =>
        match clioptions[i]? with
        | none => .nothing
        | some cli =>
          if cli.argument ∧ unescape (stringWhitespaceTrim v) = [] then .exit
          else if cli.handlerFunc.isNone || (runtime && !cli.changeable) then .nothing
          else .call i ((unescape (stringWhitespaceTrim v)).take
            (hugeBuf-4-(stringWhitespaceTrim n).length)) := by
  have hpass : ∀ c ∈ n, decide (c ≠ '=') = true := by
    intro c hc
    exact decide_eq_true fun heq => hn (heq ▸ hc)
  rw [orderOf, if_neg (by simp), List.takeWhile_append_of_pos hpass,
    List.dropWhile_append_of_pos hpass, List.takeWhile_cons_of_neg (by simp),
    List.dropWhile_cons_of_neg (by simp), List.append_nil, List.tail_cons]

section Loading

variable {H : Type} (p : Platform Call) (call : Caller H)

/-- The calls of `clioptions_load_str` whose result is not looked at. -/
def loadOnly (line : List Char) : CliOf H Unit := do
  let _ ← clioptionsLoadStrWith p call line

def findOnly (found : Found) : CliOf H Unit := do
  let _ ← loadFoundWith p call found

/-- A line without an equals sign is refused. -/
theorem clioptionsLoadStr_whole {line : List Char} (h : '=' ∉ line) (s : State H) :
    ∃ result, clioptionsLoadStrWith p call line s = .ok result s := by
  rw [clioptionsLoadStrWith]
  rcases stringSplit_whole h with hsplit | hsplit
  · rw [hsplit]
    exact ⟨_, rfl⟩
  · rw [hsplit]
    exact ⟨_, rfl⟩

/-- An option that was found with an argument: it is followed as the line says. -/
theorem findOnly_option {s : State H} {i idx : ℕ} {cli : Clioption H}
    (hcli : s.clioptions[i]? = some cli) (arg : List Char) :
    findOnly p call (.option i idx (some arg)) s =
      follow p call (if cli.handlerFunc.isNone || (s.runtime && !cli.changeable) then .nothing
        else .call i arg) s := by
  have hload := loadFound_option p call hcli idx (some arg)
  cases hhandler : cli.handlerFunc with
  | none =>
    rw [hhandler, if_pos (by simp)] at hload
    rw [if_pos (by simp)]
    split at hload
    · exact bind_ok hload
    · exact bind_ok hload
  | some handlerFunc =>
    rw [hhandler, if_neg (by simp)] at hload
    by_cases hfixed : (s.runtime && !cli.changeable) = true
    · rw [if_pos hfixed] at hload
      rw [if_pos (by simp [hfixed])]
      exact bind_ok hload
    · rw [if_neg hfixed] at hload
      rw [if_neg (by simpa using hfixed), follow, findOnly]
      change EStateM.bind _ _ s = EStateM.bind _ _ s
      rw [EStateM.bind, EStateM.bind, hload]

end Loading

section Names

variable {H : Type}

/-- The names of the options leave room for a value. -/
def NamesFit (clioptions : List (Clioption H)) : Prop :=
  ∀ cli ∈ clioptions, cli.name.length+4 < hugeBuf

theorem findIdx?_name_none {clioptions : List (Clioption H)} {name : List Char}
    (h : ∀ cli ∈ clioptions, ¬ name <+: cli.name) :
    clioptions.findIdx? (fun cli => name.isPrefixOf cli.name) = none := by
  rw [List.findIdx?_eq_none_iff]
  intro cli hcli
  exact Bool.eq_false_iff.mpr fun hbegins => h cli hcli ( List.isPrefixOf_iff_prefix.mp hbegins)

theorem findIdx?_name_some {clioptions : List (Clioption H)} {name : List Char} {j : ℕ}
    {cli : Clioption H} (hj : clioptions[j]? = some cli) (hbegins : name <+: cli.name)
    (hbefore : ∀ k < j, ∀ other, clioptions[k]? = some other → ¬ name <+: other.name) :
    clioptions.findIdx? (fun cli => name.isPrefixOf cli.name) = some j := by
  obtain ⟨hlt, hcli⟩ := List.getElem?_eq_some_iff.mp hj
  rw [List.findIdx?_eq_some_iff_getElem]
  refine ⟨hlt, by rw [hcli]; exact List.isPrefixOf_iff_prefix.mpr hbegins, fun k hk => ?_⟩
  have hother := List.getElem?_eq_getElem (Nat.lt_trans hk hlt)
  exact fun h => hbefore k hk _ hother ( List.isPrefixOf_iff_prefix.mp h)

/-- Loading a line does what the line asks for. -/
theorem loadOnly_eq (p : Platform Call) (call : Caller H) {s : State H}
    (hnames : NamesFit s.clioptions) (line : List Char) :
    loadOnly p call line s = follow p call (orderOf s.clioptions s.runtime line) s := by
  by_cases hmem : '=' ∈ line
  · obtain ⟨n, v, rfl, hn⟩ := List.eq_append_cons_of_mem hmem
    have hname : '=' ∉ stringWhitespaceTrim n := fun hc => hn (mem_stringWhitespaceTrim hc)
    have hload : loadOnly p call (n ++ '='::v) s =
        findOnly p call (clioptionsParseFind s.clioptions [[],printedLine n v] 1) s := by
      change EStateM.bind _ _ s = EStateM.bind _ _ s
      rw [EStateM.bind, EStateM.bind, loadStr_eq p call s v hn]
    rw [hload, orderOf_line hn]
    rcases printedLine_cases n v with ⟨hroom, hprinted⟩ | ⟨hlong, hprinted⟩
    · -- The value is cut, but not to nothing: the names leave room for one character.
      rw [hprinted]
      generalize stringWhitespaceTrim n = name at hname hroom
      generalize unescape (stringWhitespaceTrim v) = value
      have hargv : [[],longOption name (some (value.take (hugeBuf-4-name.length)))].getD 1 [] =
          longOption name (some (value.take (hugeBuf-4-name.length))) := rfl
      rcases parseFindFrom_long hargv hname 0 s.clioptions with
        ⟨hnone, hall⟩ | ⟨j, cli, hj, hbegins, hbefore, hfound⟩
      · rw [clioptionsParseFind, hnone, findIdx?_name_none hall]
        rfl
      · have hshort := hnames cli (List.mem_of_getElem? hj)
        have hle := hbegins.length_le
        have hempty : value.take (hugeBuf-4-name.length) = [] ↔ value = [] := by
          rw [List.take_eq_nil_iff, or_iff_right]
          omega
        rw [clioptionsParseFind, hfound, findIdx?_name_some hj hbegins hbefore, Nat.zero_add,
          longFound]
        simp only [hj, Option.some.injEq, reduceCtorEq, false_or, hempty]
        split
        · rfl
        · exact findOnly_option p call hj _
    · -- Not even the name fits, so that it is no name of an option.
      have hnone (name : List Char) (h : hugeBuf ≤ name.length+4) :
          ∀ cli ∈ s.clioptions, ¬ name <+: cli.name := by
        intro cli hcli hbegins
        have hshort := hnames cli hcli
        have hle := hbegins.length_le
        omega
      have hcut : '=' ∉ (stringWhitespaceTrim n).take (hugeBuf-3) :=
        fun hc => hname (List.mem_of_mem_take hc)
      have hargv : [[],longOption ((stringWhitespaceTrim n).take (hugeBuf-3)) none].getD 1 [] =
          longOption ((stringWhitespaceTrim n).take (hugeBuf-3)) none := rfl
      have hlength : hugeBuf ≤ ((stringWhitespaceTrim n).take (hugeBuf-3)).length+4 := by
        rw [List.length_take]
        omega
      rw [hprinted, findIdx?_name_none (hnone _ (by omega))]
      rcases parseFindFrom_long hargv hcut 0 s.clioptions with
        ⟨hmissing, -⟩ | ⟨j, cli, hj, hbegins, -⟩
      · rw [clioptionsParseFind, hmissing]
        rfl
      · exact absurd hbegins (hnone _ hlength cli (List.mem_of_getElem? hj))
  · obtain ⟨result, hresult⟩ := clioptionsLoadStr_whole p call hmem s
    rw [loadOnly, bind_ok hresult, orderOf, if_pos hmem]
    rfl

theorem orderOf_forget (clioptions : List (Clioption H)) (runtime : Bool) (line : List Char) :
    orderOf (clioptions.map forget) runtime line = orderOf clioptions runtime line := by
  have hfind (name : List Char) :
      (clioptions.map forget).findIdx? (fun cli => name.isPrefixOf cli.name) =
        clioptions.findIdx? (fun cli => name.isPrefixOf cli.name) := by
    rw [List.findIdx?_map]
    rfl
  rw [orderOf, orderOf]
  dsimp only
  rw [hfind]
  split
  · rfl
  · cases clioptions.findIdx? _ with
    | none => rfl
    | some i =>
      dsimp only
      rw [List.getElem?_map]
      cases clioptions[i]? with
      | none => rfl
      | some cli => rfl

theorem namesFit_forget {clioptions : List (Clioption H)} :
    NamesFit (clioptions.map forget) ↔ NamesFit clioptions := by simp [NamesFit, forget]

/-- Only a handler that there is is asked for. -/
theorem orderOf_call {clioptions : List (Clioption H)} {runtime : Bool} {line arg : List Char}
    {i : ℕ} (h : orderOf clioptions runtime line = .call i arg) :
    ∃ handlerFunc, clioptions[i]?.bind Clioption.handlerFunc = some handlerFunc := by
  rw [orderOf] at h
  split at h
  · cases h
  · dsimp only at h
    split at h
    · cases h
    · split at h
      · cases h
      · rename_i cli hcli
        split at h
        · cases h
        · split at h
          · cases h
          · rename_i hallowed
            cases h
            rw [Bool.or_eq_true, not_or] at hallowed
            rw [hcli]
            exact Option.ne_none_iff_exists'.mp (by simpa using hallowed.1)

end Names

end LibAtrinik.CliOptions

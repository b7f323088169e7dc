import LibAtrinik.CliOptionsFind
import LibAtrinik.StatePrograms

namespace LibAtrinik.CliOptions

open LiveHeap Rendezvous ScanFormat StatePrograms

/-- The text in which every escape has become a newline. -/
def unescape : List Char → List Char
  | '\\' :: 'n' :: str => '\n' :: unescape str
  | c::str => c::unescape str
  | [] => []

theorem unescape_cons {c : Char} {str : List Char} (h : ¬ ['\\','n'] <+: c::str) :
    unescape (c::str) = c::unescape str := by
  rw [unescape]
  rintro rest rfl rfl
  exact h ⟨rest,rfl⟩

theorem strstr_none {str : List Char} (h : strstr ['\\','n'] str = none) : unescape str = str := by
  induction str with
  | nil => rfl
  | cons c str ih =>
    rw [strstr] at h
    split at h
    · cases h
    · rename_i hnot
      rw [ List.isPrefixOf_iff_prefix] at hnot
      rw [unescape_cons hnot, ih (by simpa using h)]

/-- Replacing the first escape leaves what the text means as it is. -/
theorem strstr_some {str : List Char} {next : ℕ} (h : strstr ['\\','n'] str = some next) :
    next+2 ≤ str.length ∧ unescape (str.take next ++ '\n'::str.drop (next+2)) = unescape str := by
  induction str generalizing next with
  | nil => simp [strstr] at h
  | cons c str ih =>
    rw [strstr] at h
    split at h
    · rename_i hbegins
      rw [ List.isPrefixOf_iff_prefix] at hbegins
      obtain ⟨rest,hrest⟩ := hbegins
      rw [← Option.some.inj h, ← hrest]
      exact ⟨by simp, rfl⟩
    · rename_i hnot
      rw [ List.isPrefixOf_iff_prefix] at hnot
      obtain ⟨next',hnext,rfl⟩ := Option.map_eq_some_iff.mp h
      obtain ⟨hle,heq⟩ := ih hnext
      refine ⟨by rw [List.length_cons]; omega, ?_⟩
      rw [List.take_succ_cons, Nat.add_right_comm, List.drop_succ_cons, List.cons_append,
        unescape_cons hnot, unescape_cons, heq]
      -- The new text has no escape in front either: its second character is the old one, or new.
      rintro ⟨rest,hrest⟩
      rw [List.cons_append, List.singleton_append, List.cons.injEq] at hrest
      obtain ⟨hc,htail⟩ := hrest
      cases next' with
      | zero => simp at htail
      | succ next' =>
        cases str with
        | nil => simp at hle
        | cons x str =>
          rw [List.take_succ_cons, List.cons_append, List.cons.injEq] at htail
          exact hnot ⟨str, by rw [← hc, ← htail.1]; rfl⟩

theorem stringNewlineToLiteral_eq (str : List Char) :
    stringNewlineToLiteral str = unescape str := by
  have hloop (fuel : ℕ) (str : List Char) (hfuel : str.length ≤ fuel) :
      newlineToLiteralLoop fuel str = unescape str := by
    induction fuel generalizing str with
    | zero => rw [List.length_eq_zero_iff.mp (Nat.le_zero.mp hfuel)]; rfl
    | succ fuel ih =>
      rw [newlineToLiteralLoop]
      cases hnext : strstr ['\\','n'] str with
      | none => exact (strstr_none hnext).symm
      | some next =>
        obtain ⟨hle,heq⟩ := strstr_some hnext
        dsimp only
        rw [ih _ ?_, heq]
        rw [List.length_append, List.length_cons, List.length_take, List.length_drop]
        omega
  exact hloop str.length str (Nat.le_refl _)

theorem unescape_eq_nil {str : List Char} : unescape str = [] ↔ str = [] := by
  fun_cases unescape str <;> simp

theorem unescape_head {str : List Char} (h : str.head? ≠ some '<') :
    (unescape str).head? ≠ some '<' := by
  revert h
  fun_cases unescape str <;> simp

theorem stringSplit_line {n : List Char} (v : List Char) (hn : '=' ∉ n) :
    stringSplit (n ++ '='::v) 2 '=' = [n,v] := by
  have hpass : ∀ c ∈ n, decide (c ≠ '=') = true := by
    intro c hc
    have hne : c ≠ '=' := fun h => hn (h ▸ hc)
    simpa using hne
  rw [stringSplit, if_neg (by simp), splitFields, List.dropWhile_append_of_pos hpass,
    List.takeWhile_append_of_pos hpass]
  simp [splitFields]

theorem mem_stringWhitespaceTrim {c : Char} {str : List Char} (h : c ∈ stringWhitespaceTrim str) :
    c ∈ str :=
  ( List.rdropWhile_prefix _ _).sublist.mem ((List.dropWhile_sublist _).mem h)

section Silent

variable {H α β : Type}

/-- What never calls a handler. -/
def Silent (x : CliOf H α) : Prop := ∀ s, (left (x s)).calls = s.calls

theorem silent_pure (a : α) : Silent (pure a : CliOf H α) := fun _ => rfl

theorem Silent.bind {x : CliOf H α} {f : α → CliOf H β} (hx : Silent x)
    (hf : ∀ a, Silent (f a)) : Silent (x >>= f) := by
  intro s
  have hs := hx s
  cases hxs : x s with
  | ok a s' =>
    rw [hxs] at hs
    rw [bind_ok hxs]
    exact (hf a s').trans hs
  | error e s' =>
    rw [hxs] at hs
    rw [bind_error hxs]
    exact hs

theorem silent_free (p : Option ℕ) : Silent (free p : CliOf H Unit) := by
  intro s
  cases p with
  | none => rfl
  | some address =>
    rw [free, get_bind]
    cases s.heap.free address <;> rfl

theorem silent_replaceValue (m : Allocator) (i : ℕ) (value contents : Option ℕ)
    (cliArg : Option (List Char)) :
    Silent (replaceValue m i value contents cliArg : CliOf H Unit) := by
  refine (silent_free value).bind fun _ => ?_
  cases contents with
  | some address => exact fun _ => rfl
  | none =>
    cases cliArg with
    | none => exact silent_pure ()
    | some arg => exact fun _ => rfl

end Silent

/-- The handler is called first, and nothing after it changes the calls. -/
theorem finishCall_calls (m : Allocator) (i : ℕ) (handlerFunc : Handler) (contents : Option ℕ)
    (cliArg : Option (List Char)) (s : State) :
    (left (finishCall m callPlain i handlerFunc contents cliArg s)).calls =
      s.calls ++ [⟨i, cliArg, (handlerFunc s.calls cliArg).1⟩] := by
  let s' : State := { s with calls := s.calls ++ [⟨i, cliArg, (handlerFunc s.calls cliArg).1⟩] }
  have hsilent : Silent (if (handlerFunc s.calls cliArg).1 then do
      replaceValue m i (s'.clioptions[i]?.bind Clioption.value) contents cliArg
      return (true, (handlerFunc s.calls cliArg).2)
    else do
      free contents
      return (false, (handlerFunc s.calls cliArg).2) : Cli (Bool × Option (List Char))) := by
    split
    · exact (silent_replaceValue m i _ contents cliArg).bind fun _ => silent_pure _
    · exact (silent_free contents).bind fun _ => silent_pure _
  have hrest : finishCall m callPlain i handlerFunc contents cliArg s =
      (if (handlerFunc s.calls cliArg).1 then do
        replaceValue m i (s'.clioptions[i]?.bind Clioption.value) contents cliArg
        return (true, (handlerFunc s.calls cliArg).2)
      else do
        free contents
        return (false, (handlerFunc s.calls cliArg).2) : Cli (Bool × Option (List Char))) s' := by
    change (ite ((handlerFunc s.calls cliArg).1 = true) _ _ : Cli _) s' = _
    split <;> rfl
  rw [hrest]
  exact hsilent s'

section Handler

variable {H : Type} (p : Platform Call) {call : Caller H} {i : ℕ} {s : State H}
  {cli : Clioption H} {handlerFunc : H} (hcli : s.clioptions[i]? = some cli)
  (hhandler : cli.handlerFunc = some handlerFunc)

include hcli hhandler

theorem clioptionsCallHandler_file (path : List Char) :
    clioptionsCallHandlerWith p call i (some ('<'::path)) s =
      (match p.pathFileContents s.calls path with
        | none => pure (false, some ("Cannot open ".toList ++ path))
        | some text => do
          let contents ← xstrdup p.allocator text
          finishCall p.allocator call i handlerFunc (some contents) (some text)) s := by
  rw [clioptionsCallHandlerWith, get_bind]
  cases hcontents : p.pathFileContents s.calls path with
  | none => simp only [hcli, hhandler, hcontents]
  | some text => simp only [hcli, hhandler, hcontents]

theorem clioptionsCallHandler_plain {cliArg : Option (List Char)}
    (hfile : ∀ arg, cliArg = some arg → arg.head? ≠ some '<') :
    clioptionsCallHandlerWith p call i cliArg s =
      finishCall p.allocator call i handlerFunc none cliArg s := by
  rw [clioptionsCallHandlerWith, get_bind, hcli]
  simp only [hhandler]
  split
  · rename_i path
    exact absurd rfl (hfile _ rfl)
  · rfl

end Handler

/-- An argument that does not name a file is what the handler is given. -/
theorem clioptionsCallHandler_calls (p : Platform Call) {i : ℕ} {s : State} {cli : Clioption}
    {handlerFunc : Handler} (hcli : s.clioptions[i]? = some cli)
    (hhandler : cli.handlerFunc = some handlerFunc) {cliArg : Option (List Char)}
    (hfile : ∀ arg, cliArg = some arg → arg.head? ≠ some '<') :
    (left (clioptionsCallHandler p i cliArg s)).calls =
      s.calls ++ [⟨i, cliArg, (handlerFunc s.calls cliArg).1⟩] := by
  rw [clioptionsCallHandler, clioptionsCallHandler_plain p hcli hhandler hfile, finishCall_calls]

/-- An argument that is cut off has a shorter value or none. -/
theorem take_longOption {name v : List Char} {size : ℕ} (hsize : 2 ≤ size)
    (hlong : size < name.length + v.length + 3) (hname : '=' ∉ name) :
    ∃ name' value', (longOption name (some v)).take size = longOption name' value' ∧
      '=' ∉ name' ∧ (value' = none ∨ ∃ k < v.length, value' = some (v.take k)) := by
  obtain ⟨room,rfl⟩ : ∃ room, size = room+2 := ⟨size-2, by omega⟩
  by_cases hroom : room ≤ name.length
  · -- The equals sign is cut off as well.
    refine ⟨name.take room, none, ?_, fun h => hname (List.mem_of_mem_take h), Or.inl rfl⟩
    simp [longOption, List.take_append_of_le_length hroom]
  · obtain ⟨k,rfl⟩ : ∃ k, room = name.length+1+k := ⟨room-name.length-1, by omega⟩
    refine ⟨name, some (v.take k), ?_, hname, Or.inr ⟨k, by omega, rfl⟩⟩
    have hcut : (name ++ '='::v).take (name.length+1+k) = name ++ '='::v.take k := by
      rw [Nat.add_assoc, List.take_length_add_append, Nat.add_comm 1, List.take_succ_cons]
    simp [longOption, hcut]

/-- The argument as which a line is printed. -/
def printedLine (n v : List Char) : List Char :=
  snprintf hugeBuf (longOption (stringWhitespaceTrim n) (some (unescape (stringWhitespaceTrim v))))

section Found

variable {H : Type} (p : Platform Call) (call : Caller H)

theorem loadStr_eq (s : State H) {n : List Char} (v : List Char) (hn : '=' ∉ n) :
    clioptionsLoadStrWith p call (n ++ '='::v) s =
      loadFoundWith p call (clioptionsParseFind s.clioptions [[],printedLine n v] 1) s := by
  have hbuf : snprintf hugeBuf ("--".toList ++ stringWhitespaceTrim n ++ "=".toList ++
      stringNewlineToLiteral (stringWhitespaceTrim v)) = printedLine n v := by
    rw [stringNewlineToLiteral_eq, printedLine, longOption, Option.elim_some]
    simp
  rw [clioptionsLoadStrWith, stringSplit_line v hn]
  dsimp only
  rw [get_bind, hbuf]

theorem loadFound_option {s : State H} {i : ℕ} {cli : Clioption H}
    (hcli : s.clioptions[i]? = some cli) (idx : ℕ) (cliArg : Option (List Char)) :
    loadFoundWith p call (.option i idx cliArg) s =
      (if cli.handlerFunc.isNone then
        if s.runtime then
          pure (false, some "Option doesn't have a handler function".toList)
        else pure (true, none)
      else if s.runtime && !cli.changeable then
        pure (false, some "Option is not changeable at runtime".toList)
      else clioptionsCallHandlerWith p call i cliArg) s := by
  rw [loadFoundWith, get_bind]
  simp only [hcli]

end Found

/-- What is called for the option that was found: nothing, or its handler. -/
theorem loadFound_calls (p : Platform Call) (s : State) (found : Found) :
    (left (loadFoundWith p callPlain found s)).calls = s.calls ∨ ∃ i idx cliArg,
      found = .option i idx cliArg ∧
        ((∀ arg, cliArg = some arg → arg.head? ≠ some '<') → ∃ success,
          (left (loadFoundWith p callPlain found s)).calls = s.calls ++ [⟨i,cliArg,success⟩]) := by
  cases found with
  | notFound => exact Or.inl rfl
  | requiresArgument i => exact Or.inl rfl
  | option i idx cliArg =>
    cases hcli : s.clioptions[i]? with
    | none =>
      refine Or.inl ?_
      rw [loadFoundWith, get_bind]
      simp only [hcli]
      rfl
    | some cli =>
      rw [loadFound_option p callPlain hcli]
      split
      · split <;> exact Or.inl rfl
      · split
        · exact Or.inl rfl
        · rename_i hhandler _
          obtain ⟨handlerFunc,hhandler⟩ : ∃ h, cli.handlerFunc = some h :=
            Option.ne_none_iff_exists'.mp (by simpa using hhandler)
          exact Or.inr ⟨i, idx, cliArg, rfl, fun hfile =>
            ⟨_, clioptionsCallHandler_calls p hcli hhandler hfile⟩⟩

/-- The option with the name of a line is registered and takes an argument, its handler may be
called now, and the name begins no other name. -/
structure Configurable {H : Type} (s : State H) (n : List Char) (i : ℕ) (cli : Clioption H) :
    Prop where
  registered : s.clioptions[i]? = some cli
  name : cli.name = stringWhitespaceTrim n
  argument : cli.argument = true
  handler : cli.handlerFunc.isSome = true
  changeable : s.runtime = false ∨ cli.changeable = true
  unique : ∀ (j : ℕ) (other : Clioption H), s.clioptions[j]? = some other → j ≠ i →
    ¬ stringWhitespaceTrim n <+: other.name

/-- The line leads to exactly one call, of the handler of option `i` with `text`. -/
def Delivered (p : Platform Call) (s : State) (line : List Char) (i : ℕ) (text : List Char) :
    Prop :=
  ∃ success, (left (clioptionsLoadStr p line s)).calls = s.calls ++ [⟨i, some text, success⟩]

theorem parseFind_arg {H : Type} {clioptions : List (Clioption H)} {name : List Char}
    {value cliArg : Option (List Char)} {i idx : ℕ} (hname : '=' ∉ name)
    (h : clioptionsParseFind clioptions [[],longOption name value] 1 = .option i idx cliArg) :
    cliArg = value := by
  have hargv : [[],longOption name value].getD 1 [] = longOption name value := rfl
  rw [clioptionsParseFind] at h
  rcases parseFindFrom_long hargv hname 0 clioptions with ⟨hnone,-⟩ | ⟨j,cli,-,-,-,heq⟩
  · rw [hnone] at h
    cases h
  · rw [heq, longFound] at h
    split at h
    · cases h
    · exact (Found.option.inj h).2.2.symm

/-- A printed option that fits into the buffer is found. -/
theorem Configurable.find {s : State} {n value : List Char} {i : ℕ} {cli : Clioption}
    (h : Configurable s n i cli) (hn : '=' ∉ n) (hvalue : value ≠ []) :
    clioptionsParseFind s.clioptions [[],longOption (stringWhitespaceTrim n) (some value)] 1 =
      .option i 1 (some value) := by
  have hname : '=' ∉ stringWhitespaceTrim n := fun hc => hn (mem_stringWhitespaceTrim hc)
  have hbegins : stringWhitespaceTrim n <+: cli.name := h.name ▸ List.prefix_refl _
  have hargv : [[],longOption (stringWhitespaceTrim n) (some value)].getD 1 [] =
      longOption (stringWhitespaceTrim n) (some value) := rfl
  rcases parseFindFrom_long hargv hname 0 s.clioptions with ⟨-,hall⟩ | ⟨j,found,hj,hfound,-,heq⟩
  · exact absurd hbegins (hall cli (List.mem_of_getElem? h.registered))
  · have hij : j = i := by
      by_contra hne
      exact h.unique j found hj hne hfound
    subst hij
    rw [clioptionsParseFind, heq, longFound, if_neg (by simp [hvalue]), Nat.zero_add]

/-- A printed option that fits into the buffer is delivered as it is. -/
theorem delivered_of_fits (p : Platform Call) {s : State} {n v : List Char} {i : ℕ}
    {cli : Clioption} (hn : '=' ∉ n) (h : Configurable s n i cli)
    (hv : stringWhitespaceTrim v ≠ []) (hfile : (stringWhitespaceTrim v).head? ≠ some '<')
    (hfits : (stringWhitespaceTrim n).length + (unescape (stringWhitespaceTrim v)).length + 3 <
      hugeBuf) : Delivered p s (n ++ '='::v) i (unescape (stringWhitespaceTrim v)) := by
  have hwhole : printedLine n v =
      longOption (stringWhitespaceTrim n) (some (unescape (stringWhitespaceTrim v))) := by
    apply List.take_of_length_le
    simp [longOption]
    omega
  obtain ⟨handlerFunc,hhandler⟩ := Option.isSome_iff_exists.mp h.handler
  have hallowed : ¬ (s.runtime && !cli.changeable) = true := by
    rcases h.changeable with hc | hc <;> simp [hc]
  rw [Delivered, clioptionsLoadStr, loadStr_eq p callPlain s v hn, hwhole,
    h.find hn (mt unescape_eq_nil.mp hv), loadFound_option p callPlain h.registered,
    if_neg (by simp [hhandler]), if_neg hallowed]
  refine ⟨_, clioptionsCallHandler_calls p h.registered hhandler ?_⟩
  rintro arg ⟨⟩
  exact unescape_head hfile

/-- Whatever is called for an option that was cut off, it is not called with the whole value. -/
theorem not_delivered_of_long (p : Platform Call) (s : State) {n v : List Char} (i : ℕ)
    (hn : '=' ∉ n) (hfile : (stringWhitespaceTrim v).head? ≠ some '<')
    (hlong : ¬ (stringWhitespaceTrim n).length + (unescape (stringWhitespaceTrim v)).length + 3 <
      hugeBuf) : ¬ Delivered p s (n ++ '='::v) i (unescape (stringWhitespaceTrim v)) := by
  have hname : '=' ∉ stringWhitespaceTrim n := fun hc => hn (mem_stringWhitespaceTrim hc)
  have hfile' := unescape_head hfile
  have hsize : 2 ≤ hugeBuf-1 := by decide
  rw [Delivered, clioptionsLoadStr, loadStr_eq p callPlain s v hn, printedLine, snprintf]
  generalize unescape (stringWhitespaceTrim v) = value at hfile' hlong
  have hlong' : hugeBuf-1 < (stringWhitespaceTrim n).length + value.length + 3 := by
    rw [hugeBuf] at hlong ⊢
    omega
  obtain ⟨name',value',hcut,hname',hvalue'⟩ := take_longOption hsize hlong' hname
  rw [hcut]
  rintro ⟨success,hcalls⟩
  rcases loadFound_calls p s (clioptionsParseFind s.clioptions [[],longOption name' value'] 1) with
    hsilent | ⟨j,idx,cliArg,hfound,hlog⟩
  · rw [hsilent] at hcalls
    exact absurd (congrArg List.length hcalls) (by simp)
  · -- What is called is called with the value that was printed, which is a shorter one.
    have harg := parseFind_arg hname' hfound
    subst harg
    obtain ⟨success',hlog⟩ := hlog fun arg harg => by
      rcases hvalue' with hnone | ⟨k,-,hsome⟩
      · rw [hnone] at harg
        cases harg
      · rw [hsome, Option.some.injEq] at harg
        rw [← harg, List.head?_take]
        split <;> simp [hfile']
    rw [hlog, List.append_cancel_left_eq, List.cons.injEq, Call.mk.injEq] at hcalls
    rcases hvalue' with hnone | ⟨k,hk,hsome⟩
    · rw [hnone] at hcalls
      exact absurd hcalls.1.2.1 (by simp)
    · rw [hsome, Option.some.injEq] at hcalls
      have hlength := congrArg List.length hcalls.1.2.1
      rw [List.length_take] at hlength
      omega

/-- A line of a configuration file delivers its value exactly when the option and the value fit
into the buffer, with two dashes in front, an equals sign between them and the terminator. -/
theorem load_str_delivers_iff (p : Platform Call) (s : State) (n v : List Char) (i : ℕ)
    (cli : Clioption) (hn : '=' ∉ n) (h : Configurable s n i cli)
    (hv : stringWhitespaceTrim v ≠ []) (hfile : (stringWhitespaceTrim v).head? ≠ some '<') :
    Delivered p s (n ++ '='::v) i (unescape (stringWhitespaceTrim v)) ↔
      (stringWhitespaceTrim n).length + (unescape (stringWhitespaceTrim v)).length + 3 <
        hugeBuf := by
  constructor
  · intro hdelivered
    by_contra hlong
    exact not_delivered_of_long p s i hn hfile hlong hdelivered
  · exact delivered_of_fits p hn h hv hfile

/-- A platform without files. -/
def noFiles : Platform Call where
  allocator := .above
  pathFileContents _ _ := none

/-- One option, whose handler accepts everything. -/
def logfileOption : Clioption :=
  { name := "logfile".toList, handlerFunc := some fun _ _ => (true, none), argument := true,
    changeable := true }

def logfileState : State := ⟨[logfileOption], true, ⟨[], fun _ => []⟩, []⟩

theorem logfileState_configurable : Configurable logfileState "logfile ".toList 0 logfileOption where
  registered := rfl
  name := by decide
  argument := rfl
  handler := rfl
  changeable := Or.inr rfl
  unique j other hj hne := by
    cases j with
    | zero => exact absurd rfl hne
    | succ j => simp [logfileState] at hj

theorem load_str_delivers_iff_logfile :
    Delivered noFiles logfileState ("logfile ".toList ++ '=' :: " a\\nb=c ".toList) 0
        (unescape (stringWhitespaceTrim " a\\nb=c ".toList)) ↔
      (stringWhitespaceTrim "logfile ".toList).length +
        (unescape (stringWhitespaceTrim " a\\nb=c ".toList)).length + 3 < hugeBuf :=
  load_str_delivers_iff noFiles logfileState "logfile ".toList " a\\nb=c ".toList 0 logfileOption
    (by decide) logfileState_configurable (by decide) (by decide)

/-- Nothing in a run of one letter is trimmed or escaped. -/
theorem trimmed_replicate (k : ℕ) : stringWhitespaceTrim (List.replicate k 'x') =
    List.replicate k 'x' ∧ unescape (List.replicate k 'x') = List.replicate k 'x' := by
  constructor
  · have hspace : isSpace 'x' = false := by decide
    simp [stringWhitespaceTrim, List.rdropWhile, hspace]
  · induction k with
    | zero => rfl
    | succ k ih =>
      rw [List.replicate_succ, unescape_cons, ih]
      rintro ⟨rest,hrest⟩
      simp at hrest

/-- A value of 4096 characters is not delivered. -/
theorem load_str_truncates :
    ¬ ∀ (p : Platform Call) (s : State) (n v : List Char) (i : ℕ) (cli : Clioption), '=' ∉ n →
      Configurable s n i cli → stringWhitespaceTrim v ≠ [] →
      (stringWhitespaceTrim v).head? ≠ some '<' →
      Delivered p s (n ++ '='::v) i (unescape (stringWhitespaceTrim v)) := by
  intro hall
  obtain ⟨htrim,hescape⟩ := trimmed_replicate hugeBuf
  have hne : List.replicate hugeBuf 'x' ≠ [] := List.replicate_succ_ne_nil
  have hhead : (List.replicate hugeBuf 'x').head? ≠ some '<' := by
    rw [List.head?_replicate]
    decide
  have hdelivered := hall noFiles logfileState "logfile ".toList (List.replicate hugeBuf 'x') 0
    logfileOption (by decide) logfileState_configurable (by rwa [htrim]) (by rwa [htrim])
  refine not_delivered_of_long noFiles logfileState 0 (by decide) (by rwa [htrim]) ?_ hdelivered
  rw [htrim, hescape, List.length_replicate]
  omega

end LibAtrinik.CliOptions

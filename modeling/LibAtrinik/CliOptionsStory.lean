import LibAtrinik.CliOptionsFileRuns

/-! What loading a file means, told without buffers, section titles that are kept, strings on a heap
and values: the lines of the section are orders, which are followed one after another, and only the
finished calls of handlers are known. The loader does what is told. -/
namespace LibAtrinik.CliOptions

open LiveHeap StatePrograms

/-- A story goes on with the finished calls, or the program has ended. -/
abbrev Story := EStateM Unit (List Call)

def tellReply (load : List Char → Option (List Char) → Story Bool) :
    Reply → Story (Bool × Option (List Char))
  | .returns success errmsg => return (success, errmsg)
  | .exits => throw ()
  | .loads path category next => do
    let success ← load path category
    let calls ← get
    tellReply load (next success calls)

def tellNote (call : Call) : Story Unit := modify (· ++ [call])

section Story

variable (p : Platform Call) (options : List (Clioption Routine) × Bool)
  (load : List Char → Option (List Char) → Story Bool)

/-- The handler is called with the argument, or with the contents of the file that it names. The
calls that it leads to itself are finished before it. -/
def tellCall (i : ℕ) (arg : List Char) : Story Unit := do
  let calls ← get
  match options.1[i]?.bind Clioption.handlerFunc, given p calls (some arg) with
  | some routine, some arg => do
    let (success, _) ← tellReply load (routine calls arg)
    tellNote ⟨i, arg, success⟩
  | _, _ => pure ()

def tellOrders : List Order → Story Unit
  | [] => pure ()
  | .nothing::orders => tellOrders orders
  | .exit::_ => throw ()
  | .call i arg::orders => do
    tellCall p options load i arg
    tellOrders orders

end Story

/-- A file that can be opened is the orders of its section. -/
def tellLoad (p : Platform Call) (fopen : List Call → List Char → Option (List Char))
    (options : List (Clioption Routine) × Bool) : ℕ → List Char → Option (List Char) → Story Bool
  | 0, _, _ => return false
  | limit+1, path, category => do
    let calls ← get
    match fopen calls path with
    | none => return false
    | some file =>
      tellOrders p options (tellLoad p fopen options limit) (ordersOf options category file)
      return true

/-- Between two steps the values are sound, and the strings that some caller still needs are
there. -/
structure Follows (options : List (Clioption Routine) × Bool) (needed : ℕ → List Char → Prop)
    (s : State Routine) (calls : List Call) : Prop where
  calls : s.calls = calls
  registered : registered s = options
  sound : Sounds s
  spare : ∀ address text, needed address text → Spare s address text

theorem given_some {p : Platform Call} {calls : List Call} {arg : List Char}
    {arg' : Option (List Char)} (h : given p calls (some arg) = some arg') : arg' ≠ none := by
  unfold given at h
  split at h
  · obtain ⟨text, -, rfl⟩ := Option.map_eq_some_iff.mp h
    exact Option.some_ne_none text
  · cases h
    exact Option.some_ne_none arg

section Simulation

variable {p : Platform Call} {options : List (Clioption Routine) × Bool}
  {needed : ℕ → List Char → Prop}

/-- A loader does what is told of it, whatever its caller needs. -/
abbrev Loads (options : List (Clioption Routine) × Bool)
    (load : List Char → Option (List Char) → CliOf Routine Bool)
    (tell : List Char → Option (List Char) → Story Bool) : Prop :=
  ∀ (path : List Char) (category : Option (List Char)) (needed : ℕ → List Char → Prop),
    Simulates (fun _ => Stop.exit) (Follows options needed) (load path category)
      (tell path category)

variable {load : List Char → Option (List Char) → CliOf Routine Bool}
  {tell : List Char → Option (List Char) → Story Bool}

/-- By the steps of the handler. -/
theorem simulates_runReply (hload : Loads options load tell) (reply : Reply) :
    Simulates (fun _ => Stop.exit) (Follows options needed) (runReply load reply)
      (tellReply tell reply) := by
  induction reply with
  | returns success errmsg => exact simulates_pure (success, errmsg)
  | exits => exact simulates_throw ()
  | loads path category next ih =>
    -- The handler learns what the file has led to, which is the same on both sides.
    refine (hload path category needed).bind fun success s calls h => ?_
    have hnext := ih success s.calls s calls h
    rw [h.calls] at hnext
    rw [get_bind, h.calls]
    exact hnext

theorem registered_handler {s : State Routine} (h : registered s = options) {i : ℕ}
    {routine : Routine} (hhandler : options.1[i]?.bind Clioption.handlerFunc = some routine) :
    ∃ cli, s.clioptions[i]? = some cli ∧ cli.handlerFunc = some routine := by
  obtain ⟨other, hother, hfunc⟩ := Option.bind_eq_some_iff.mp hhandler
  rw [← h, registered, List.getElem?_map] at hother
  obtain ⟨cli, hcli, rfl⟩ := Option.map_eq_some_iff.mp hother
  exact ⟨cli, hcli, hfunc⟩

/-- After its handler a call takes the contents of its file, and all other strings that are needed
are still there. -/
theorem endsLike_finishCall (m : Allocator) {i : ℕ} {routine : Routine}
    (hhandler : options.1[i]?.bind Clioption.handlerFunc = some routine) {contents : Option ℕ}
    {arg : List Char} {s : State Routine} {calls : List Call} {call : Caller Routine}
    {reply : Story (Bool × Option (List Char))}
    (hreply : EndsLike (fun _ => Stop.exit) (Follows options fun address text =>
      needed address text ∨ contents = some address ∧ arg = text)
      (call routine (some arg) s) (reply calls))
    (hother : ∀ address text, needed address text → contents ≠ some address) :
    EndsLike (fun _ => Stop.exit) (Follows options needed)
      ((do let _ ← finishCall m call i routine contents (some arg)) s)
      ((do
        let (success, _) ← reply
        tellNote ⟨i, some arg, success⟩) calls) := by
  generalize hrun : call routine (some arg) s = r, htold : reply calls = r' at hreply
  cases hreply with
  | @ok answer s' calls' h =>
    obtain ⟨success, errmsg⟩ := answer
    -- The option is still where it was, although its value may be another one now.
    obtain ⟨cli, hcli, -⟩ := registered_handler h.registered hhandler
    have hcontents : ∀ b, contents = some b → Contents s' (some arg) b := fun b hb =>
      ⟨arg, rfl, h.spare b arg (Or.inr ⟨hb, rfl⟩)⟩
    obtain ⟨last, hfinish, hstepped⟩ := finishCall_spec m hrun h.sound hcli hcontents
    rw [bind_ok hfinish, bind_ok htold]
    refine .ok () ⟨?_, hstepped.registered.trans h.registered, ?_, fun address text hneeded => ?_⟩
    · rw [hstepped.calls, h.calls]
    · exact hstepped.kept fun hloses => Option.some_ne_none arg hloses.1
    · exact hstepped.spare address text (h.spare address text (Or.inl hneeded))
        (hother address text hneeded)
  | @error e s' calls' h =>
    -- The program has ended in the handler, with the contents of the file still there.
    have hfinish : finishCall m call i routine contents (some arg) s = .error .exit s' := by
      rw [finishCall, bind_error hrun]
    rw [bind_error hfinish, bind_error htold]
    exact .error () ⟨h.calls, h.registered, h.sound, fun address text hneeded =>
      h.spare address text (Or.inl hneeded)⟩

theorem tellCall_eq {i : ℕ} {routine : Routine}
    (hhandler : options.1[i]?.bind Clioption.handlerFunc = some routine) (arg : List Char)
    (calls : List Call) : tellCall p options tell i arg calls =
      (match given p calls (some arg) with
        | some arg => do
          let (success, _) ← tellReply tell (routine calls arg)
          tellNote ⟨i, arg, success⟩
        | none => pure () : Story Unit) calls := by
  change (match options.1[i]?.bind Clioption.handlerFunc, given p calls (some arg) with
    | some routine, some arg => _
    | _, _ => _ : Story Unit) calls = _
  rw [hhandler]
  cases given p calls (some arg) <;> rfl

variable (p)

/-- The handler may load files while the contents of its own file wait to become the value. -/
theorem simulates_call (hload : Loads options load tell) {i : ℕ} {routine : Routine}
    (hhandler : options.1[i]?.bind Clioption.handlerFunc = some routine) (arg : List Char) :
    Simulates (fun _ => Stop.exit) (Follows options needed)
      (follow p (callRoutine load) (.call i arg)) (tellCall p options tell i arg) := by
  intro s calls h
  obtain ⟨cli, hcli, hfunc⟩ := registered_handler h.registered hhandler
  rw [tellCall_eq hhandler, follow]
  cases hgiven : given p calls (some arg) with
  | none =>
    -- The file that the argument names cannot be opened, and no handler is called.
    rw [← h.calls] at hgiven
    obtain ⟨result, hmissing⟩ :=
      clioptionsCallHandler_missing p (callRoutine load) hcli hfunc hgiven
    rw [bind_ok hmissing]
    exact .ok () h
  | some arg' =>
    obtain ⟨text, rfl⟩ := Option.ne_none_iff_exists'.mp (given_some hgiven)
    rw [← h.calls] at hgiven
    obtain ⟨s₁, contents, hcall, hprepared⟩ :=
      clioptionsCallHandler_given p (callRoutine load) hcli hfunc h.sound hgiven
    -- The reply runs with the contents as one more string that is needed.
    have hstart : Follows options (fun address text' =>
        needed address text' ∨ contents = some address ∧ text = text') s₁ calls := by
      refine ⟨hprepared.calls.trans h.calls, hprepared.registered.trans h.registered,
        hprepared.sound, fun address text' hneeded => ?_⟩
      rcases hneeded with hneeded | ⟨hcontents, rfl⟩
      · exact (hprepared.spare address text' (h.spare address text' hneeded)).1
      · obtain ⟨text', htext, hspare⟩ := hprepared.fresh address hcontents
        rwa [Option.some.inj htext]
    have hreply := simulates_runReply hload (routine calls (some text)) s₁ calls hstart
    have hroutine : callRoutine load routine (some text) s₁ =
        runReply load (routine calls (some text)) s₁ := by
      rw [callRoutine, get_bind, hstart.calls]
    rw [← hroutine] at hreply
    have hrun : (do let _ ← clioptionsCallHandlerWith p (callRoutine load) i (some arg)) s =
        (do let _ ← finishCall p.allocator (callRoutine load) i routine contents (some text)) s₁ := by
      change EStateM.bind _ _ s = EStateM.bind _ _ s₁
      rw [EStateM.bind, EStateM.bind, hcall]
    rw [hrun]
    exact endsLike_finishCall p.allocator hhandler hreply fun address text' hneeded =>
      (hprepared.spare address text' (h.spare address text' hneeded)).2

/-- By the lines, each of which does what it asks for. -/
theorem simulates_loadAll (hload : Loads options load tell) (hnames : NamesFit options.1)
    (lines : List (List Char)) :
    Simulates (fun _ => Stop.exit) (Follows options needed) (loadAll p (callRoutine load) lines)
      (tellOrders p options tell (lines.map (orderOf options.1 options.2))) := by
  induction lines with
  | nil => exact simulates_pure ()
  | cons line lines ih =>
    intro s calls h
    have hfits : NamesFit s.clioptions := by
      rw [← h.registered] at hnames
      exact namesFit_forget.mp hnames
    have horder : orderOf s.clioptions s.runtime line = orderOf options.1 options.2 line := by
      rw [← h.registered]
      exact (orderOf_forget s.clioptions s.runtime line).symm
    have hline := loadOnly_eq p (callRoutine load) hfits line
    rw [horder] at hline
    rw [List.map_cons, loadAll]
    cases hasked : orderOf options.1 options.2 line with
    | nothing =>
      rw [hasked] at hline
      rw [bind_ok hline]
      exact ih s calls h
    | exit =>
      -- The required argument is missing, and the lines behind are not read.
      rw [hasked] at hline
      rw [bind_error hline]
      exact .error () h
    | call i arg =>
      obtain ⟨routine, hhandler⟩ := orderOf_call hasked
      have hcall := simulates_call p hload hhandler arg s calls h
      rw [hasked] at hline
      rw [← hline] at hcall
      exact hcall.bind (fun _ => ih) fun _ _ h => h

variable (fopen : List Call → List Char → Option (List Char))

/-- By the number of files that may still be opened. -/
theorem loads_clioptionsLoad (hnames : NamesFit options.1) (limit : ℕ) :
    Loads options (clioptionsLoad p fopen limit) (tellLoad p fopen options limit) := by
  induction limit with
  | zero => exact fun _ _ _ => simulates_pure false
  | succ limit ih =>
    intro path category needed s calls h
    rw [clioptionsLoad, tellLoad, get_bind, get_bind, h.calls]
    cases fopen calls path with
    | none => exact .ok false h
    | some file =>
      -- The handlers of its lines may open one file less.
      dsimp only
      rw [loadLoop_file]
      exact ((simulates_loadAll p ih hnames _).bind fun _ => simulates_pure true) s calls h

end Simulation

/-- Loading a file makes the calls that are told of it, in their order and at any depth of files
that handlers load, and leaves every value live and the latest of its option. It comes back or ends
the program as is told, and never touches what is not live. -/
theorem load_calls_in_order (p : Platform Call)
    (fopen : List Call → List Char → Option (List Char)) (limit : ℕ) (s : State Routine)
    (h : Sounds s) (hnames : NamesFit s.clioptions) (path : List Char)
    (category : Option (List Char)) :
    EndsLike (fun _ => Stop.exit)
      (fun s' calls => s'.calls = calls ∧ registered s' = registered s ∧ Sounds s' ∧ ValuesLive s')
      (clioptionsLoad p fopen limit path category s)
      (tellLoad p fopen (registered s) limit path category s.calls) := by
  have hload := loads_clioptionsLoad p fopen (namesFit_forget.mpr hnames) limit path category
    (fun _ _ => False) s s.calls ⟨rfl, rfl, h, fun _ _ hneeded => hneeded.elim⟩
  exact hload.mono fun s' calls hend =>
    ⟨hend.calls, hend.registered, hend.sound, Sound.valuesLive hend.sound⟩

/-- Three of the options of the library. -/
def sampleState : State Routine where
  clioptions := [
    { name := "config".toList, handlerFunc := some clioptionsOptionConfig, argument := true,
      changeable := true },
    { name := "help".toList, shortName := some ['h'], handlerFunc := some clioptionsOptionHelp },
    { name := "logfile".toList, handlerFunc := some fun _ _ => .returns true none,
      argument := true, changeable := true }]
  runtime := false
  heap := ⟨[], fun _ => []⟩
  calls := []

theorem sampleState_sound : Sounds sampleState :=
  sounds_initial (by simp) false ⟨[], fun _ => []⟩

theorem sampleState_namesFit : NamesFit sampleState.clioptions := by
  rw [NamesFit]
  decide

/-- A file that loads another one, in which the program ends. -/
def sampleFiles (_ : List Call) (path : List Char) : Option (List Char) :=
  if path = ['a'] then some "logfile = x\nconfig = b\nlogfile = z\n".toList
  else if path = ['b'] then some "[c]\n# comment\nlogfile = y\nhelp = True\n".toList
  else none

theorem load_calls_in_order_sample :
    EndsLike (fun _ => Stop.exit)
      (fun s' calls => s'.calls = calls ∧ registered s' = registered sampleState ∧ Sounds s' ∧
        ValuesLive s')
      (clioptionsLoad noFiles sampleFiles 2 ['a'] none sampleState)
      (tellLoad noFiles sampleFiles (registered sampleState) 2 ['a'] none sampleState.calls) :=
  load_calls_in_order noFiles sampleFiles 2 sampleState sampleState_sound sampleState_namesFit ['a']
    none

example : left (tellLoad noFiles sampleFiles (registered sampleState) 2 ['a'] none []) =
    [⟨2, some ['x'], true⟩, ⟨2, some ['y'], true⟩] := by decide +kernel

/-- When no second file can be opened, the rest of the first one is still loaded. -/
example : left (tellLoad noFiles sampleFiles (registered sampleState) 1 ['a'] none []) =
    [⟨2, some ['x'], true⟩, ⟨0, some ['b'], false⟩, ⟨2, some ['z'], true⟩] := by decide +kernel

end LibAtrinik.CliOptions

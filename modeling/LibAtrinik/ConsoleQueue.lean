import Mathlib.Data.List.Basic
import Mathlib.Tactic.Common
import LibAtrinik.FuelLoop

/-! The console's two threads. The input thread appends lines to a dynamic array of `utarray.h`; the
main thread takes the address of the first element under the mutex, and uses it after the mutex has
been released. In the meantime an append may move the elements. -/
namespace LibAtrinik.Console

abbrev Line := List UInt8

/-- `UT_array`. The elements in use are `d`, so that `i` is their number. The storage is told apart
from those that the array had before by the number `block`. -/
structure UtArray (α : Type) where
  d : List α := []
  n : ℕ := 0
  block : ℕ := 0

variable {α H : Type}

def UtArray.i (a : UtArray α) : ℕ := a.d.length

/-- The loop of `utarray_reserve`, with `unsigned` capacities. They repeat after 31 rounds. -/
def utarrayGrow (need n : ℕ) : Option ℕ :=
  FuelLoop.run (fun n => if need > n then .inl (if n = 0 then 8 else 2*n%4294967296) else .inr n) 64 n

/-- `realloc` may leave the storage where it is. -/
def utarrayReserve (a : UtArray α) (bys : ℕ) (stays : Bool) : Option (UtArray α) :=
  if a.i+bys > a.n then
    (utarrayGrow (a.i+bys) a.n).map fun n =>
      { a with n := n, block := if stays then a.block else a.block+1 }
  else some a

def utarrayPushBack (a : UtArray α) (p : α) (stays : Bool) : Option (UtArray α) :=
  (utarrayReserve a 1 stays).map fun a => { a with d := a.d ++ [p] }

/-- The address of the first element: the storage that it is in. -/
def utarrayFront (a : UtArray α) : Option ℕ := if a.i ≠ 0 then some a.block else none

/-- Reading at the address of a first element. The storage must not have moved. -/
def UtArray.read (a : UtArray α) (address : ℕ) : Option α :=
  if address = a.block then a.d.head? else none

def UtArray.write (a : UtArray α) (p : α) : UtArray α := { a with d := a.d.set 0 p }

/-- Of an array of strings: the destructor of an element that does not exist faults. -/
def utarrayErase (a : UtArray α) (pos len : ℕ) : Option (UtArray α) :=
  if pos+len ≤ a.i then some { a with d := a.d.take pos ++ a.d.drop (pos+len) } else none

structure ConsoleCommand (H : Type) where
  command : Line
  handleFunc : H
  descBrief : Line
  desc : Line

/-- Where the main thread is in `console_command_handle`. -/
inductive Main where
  | outside
  /-- The newline is removed next. -/
  | newline (line : ℕ)
  /-- The command is separated from the parameters next. -/
  | space (line : ℕ)
  /-- Command `i` is compared next. -/
  | search (line : ℕ) (cp : Option Line) (i : ℕ)
  /-- The handler is running. -/
  | calling
  /-- The line is removed from the queue next. -/
  | erase
deriving DecidableEq

structure State (H : Type) where
  commands : List (ConsoleCommand H)
  queue : UtArray Line := {}
  main : Main := .outside

/-- What can be seen of a step. -/
inductive Event (H : Type) where
  /-- A line was appended, and the storage was moved or not. -/
  | pushed (line : Line) (moved : Bool)
  | added (command : ConsoleCommand H)
  /-- The main thread has looked for the first line. -/
  | entered
  /-- A line was given to a handler, or no command had its name. -/
  | dispatched (call : Option (H × Option Line))
  /-- The first line was removed. -/
  | removed

/-- Copying stops at the first NUL. -/
def strdup (line : Line) : Line := line.takeWhile (· ≠ 0)

/-- `handle_enter`, or the loop of `do_thread`: the line is appended under the mutex. -/
def State.push (c : State H) (line : Line) (stays : Bool) : Option (State H) :=
  (utarrayPushBack c.queue (strdup line) stays).map fun queue => { c with queue := queue }

/-- No second command gets the name of another. -/
def consoleCommandAdd (commands : List (ConsoleCommand H)) (new : ConsoleCommand H) :
    List (ConsoleCommand H) :=
  if commands.any (·.command = new.command) then commands else commands ++ [new]

/-- The first access to the queue. -/
def State.enter (c : State H) : State H :=
  { c with main := match utarrayFront c.queue with
    | none => .outside
    | some line => .newline line }

def cutNewline (line : Line) : Line := line.takeWhile (· ≠ 10)

/-- What is left of the line once the space after the command is overwritten. -/
def cutSpace (line : Line) : Line := line.takeWhile (· ≠ 32)

/-- What follows the first space, unless that is nothing. -/
def afterSpace (line : Line) : Option Line :=
  match line.dropWhile (· ≠ 32) with
  | _ :: cp => if cp = [] then none else some cp
  | [] => none

/-- The next step of `console_command_handle`, with the event that can be seen. A step that reads
the line where it is no longer stored has no result. -/
def State.step (c : State H) : Option (State H × Option (Event H)) :=
  match c.main with
  | .outside => none
  | .newline line => (c.queue.read line).map fun text =>
    ({ c with queue := c.queue.write (cutNewline text), main := .space line }, none)
  | .space line => (c.queue.read line).map fun text =>
    ({ c with queue := c.queue.write (cutSpace text), main := .search line (afterSpace text) 0 },
      none)
  | .search line cp i =>
    match c.commands[i]? with
    | none => some ({ c with main := .erase }, some (.dispatched none))
    | some command => (c.queue.read line).map fun text =>
      if command.command = text then
        ({ c with main := .calling }, some (.dispatched (some (command.handleFunc, cp))))
      else ({ c with main := .search line cp (i+1) }, none)
  | .calling => some ({ c with main := .erase }, none)
  | .erase => (utarrayErase c.queue 0 1).map fun queue =>
    ({ c with queue := queue, main := .outside }, some .removed)

/-- The two threads in any order. Commands are added by the main thread, handlers included. -/
inductive Run (commands : List (ConsoleCommand H)) : List (Event H) → State H → Prop where
  | start : Run commands [] { commands := commands }
  | push (es : List (Event H)) (c c' : State H) (line : Line) (stays : Bool)
      (h : Run commands es c) (hpush : c.push line stays = some c') :
      Run commands (es ++ [.pushed line (c'.queue.block ≠ c.queue.block)]) c'
  | add (es : List (Event H)) (c : State H) (new : ConsoleCommand H) (h : Run commands es c)
      (hmain : c.main = .outside ∨ c.main = .calling) :
      Run commands (es ++ [.added new]) { c with commands := consoleCommandAdd c.commands new }
  | enter (es : List (Event H)) (c : State H) (h : Run commands es c)
      (hmain : c.main = .outside) : Run commands (es ++ [.entered]) c.enter
  | step (es : List (Event H)) (c c' : State H) (e : Option (Event H)) (h : Run commands es c)
      (hstep : c.step = some (c', e)) : Run commands (es ++ e.toList) c'

/-- The call that a line stands for. -/
def dispatch (commands : List (ConsoleCommand H)) (line : Line) : Option (H × Option Line) :=
  (commands.find? (·.command = cutSpace (cutNewline line))).map fun command =>
    (command.handleFunc, afterSpace (cutNewline line))

/-- A server that takes whole lines from a queue, in the order in which they arrived, and calls
what they stand for with the commands that there are then. -/
inductive Serves (commands : List (ConsoleCommand H)) :
    List (Event H) → List (ConsoleCommand H) → List Line → Prop where
  | start : Serves commands [] commands []
  | push (es : List (Event H)) (cs : List (ConsoleCommand H)) (waiting : List Line) (line : Line)
      (moved : Bool) (h : Serves commands es cs waiting) :
      Serves commands (es ++ [.pushed line moved]) cs (waiting ++ [strdup line])
  | add (es : List (Event H)) (cs : List (ConsoleCommand H)) (waiting : List Line)
      (new : ConsoleCommand H) (h : Serves commands es cs waiting) :
      Serves commands (es ++ [.added new]) (consoleCommandAdd cs new) waiting
  | enter (es : List (Event H)) (cs : List (ConsoleCommand H)) (waiting : List Line)
      (h : Serves commands es cs waiting) : Serves commands (es ++ [.entered]) cs waiting
  | dispatch (es : List (Event H)) (cs : List (ConsoleCommand H)) (waiting : List Line)
      (line : Line) (h : Serves commands es cs (line :: waiting)) :
      Serves commands (es ++ [.dispatched (dispatch cs line)]) cs waiting
  | remove (es : List (Event H)) (cs : List (ConsoleCommand H)) (waiting : List Line)
      (h : Serves commands es cs waiting) : Serves commands (es ++ [.removed]) cs waiting

/-- The lines that the array holds for the server: the first one may have been cut already, or been
served. -/
def State.Holds (c : State H) (waiting : List Line) : Prop :=
  match c.main with
  | .outside => c.queue.d = waiting
  | .newline _ => waiting ≠ [] ∧ c.queue.d = waiting
  | .space _ => ∃ line rest, waiting = line :: rest ∧ c.queue.d = cutNewline line :: rest
  | .search _ cp i => ∃ line rest, waiting = line :: rest ∧
    c.queue.d = cutSpace (cutNewline line) :: rest ∧ cp = afterSpace (cutNewline line) ∧
    ∀ command ∈ c.commands.take i, command.command ≠ cutSpace (cutNewline line)
  | .calling => ∃ text, c.queue.d = text :: waiting
  | .erase => ∃ text, c.queue.d = text :: waiting

theorem utarrayReserve_d {a a' : UtArray α} {bys : ℕ} {stays : Bool}
    (h : utarrayReserve a bys stays = some a') : a'.d = a.d := by
  unfold utarrayReserve at h
  by_cases hfull : a.i+bys > a.n
  · rw [if_pos hfull] at h
    obtain ⟨n, _, rfl⟩ := Option.map_eq_some_iff.mp h
    rfl
  · rw [if_neg hfull] at h
    rw [Option.some.inj h]

theorem State.push_d {c c' : State H} {line : Line} {stays : Bool}
    (h : c.push line stays = some c') :
    c'.queue.d = c.queue.d ++ [strdup line] ∧ c'.commands = c.commands ∧ c'.main = c.main := by
  obtain ⟨queue, hqueue, rfl⟩ := Option.map_eq_some_iff.mp h
  obtain ⟨a, ha, rfl⟩ := Option.map_eq_some_iff.mp hqueue
  exact ⟨by rw [utarrayReserve_d ha], rfl, rfl⟩

/-- A line is appended behind what the main thread is working on. -/
theorem State.Holds.push {c c' : State H} {line : Line} {stays : Bool} {waiting : List Line}
    (h : c.Holds waiting) (hpush : c.push line stays = some c') :
    c'.Holds (waiting ++ [strdup line]) := by
  obtain ⟨hd, hcommands, hmain⟩ := c.push_d hpush
  unfold State.Holds at h ⊢
  rw [hmain, hd, hcommands]
  cases hm : c.main with
  | outside =>
    rw [hm] at h
    exact congrArg (· ++ [strdup line]) h
  | newline address =>
    rw [hm] at h
    exact ⟨by simp, congrArg (· ++ [strdup line]) h.2⟩
  | space address =>
    rw [hm] at h
    obtain ⟨first, rest, rfl, hd'⟩ := h
    exact ⟨first, rest ++ [strdup line], rfl, by rw [hd']; rfl⟩
  | search address cp i =>
    rw [hm] at h
    obtain ⟨first, rest, rfl, hd', hcp, hno⟩ := h
    exact ⟨first, rest ++ [strdup line], rfl, by rw [hd']; rfl, hcp, hno⟩
  | calling =>
    rw [hm] at h
    obtain ⟨text, hd'⟩ := h
    exact ⟨text, by rw [hd']; rfl⟩
  | erase =>
    rw [hm] at h
    obtain ⟨text, hd'⟩ := h
    exact ⟨text, by rw [hd']; rfl⟩

theorem UtArray.read_eq_some {a : UtArray α} {address : ℕ} {x : α}
    (h : a.read address = some x) : address = a.block ∧ a.d.head? = some x := by
  unfold UtArray.read at h
  by_cases hb : address = a.block
  · rw [if_pos hb] at h
    exact ⟨hb, h⟩
  · rw [if_neg hb] at h
    cases h

/-- What a step of the main thread does. -/
inductive Stepped (c : State H) : State H → Option (Event H) → Prop where
  | newline (line : ℕ) (text : Line) (hm : c.main = .newline line)
      (hread : c.queue.read line = some text) :
      Stepped c { c with queue := c.queue.write (cutNewline text), main := .space line } none
  | space (line : ℕ) (text : Line) (hm : c.main = .space line)
      (hread : c.queue.read line = some text) :
      Stepped c { c with
        queue := c.queue.write (cutSpace text), main := .search line (afterSpace text) 0 } none
  | missing (line : ℕ) (cp : Option Line) (i : ℕ) (hm : c.main = .search line cp i)
      (hi : c.commands[i]? = none) :
      Stepped c { c with main := .erase } (some (.dispatched none))
  | found (line : ℕ) (cp : Option Line) (i : ℕ) (command : ConsoleCommand H)
      (hm : c.main = .search line cp i) (hi : c.commands[i]? = some command)
      (hread : c.queue.read line = some command.command) :
      Stepped c { c with main := .calling } (some (.dispatched (some (command.handleFunc, cp))))
  | other (line : ℕ) (cp : Option Line) (i : ℕ) (command : ConsoleCommand H) (text : Line)
      (hm : c.main = .search line cp i) (hi : c.commands[i]? = some command)
      (hread : c.queue.read line = some text) (hne : command.command ≠ text) :
      Stepped c { c with main := .search line cp (i+1) } none
  | returned (hm : c.main = .calling) : Stepped c { c with main := .erase } none
  | removed (queue : UtArray Line) (hm : c.main = .erase)
      (herase : utarrayErase c.queue 0 1 = some queue) :
      Stepped c { c with queue := queue, main := .outside } (some .removed)

theorem State.step_cases {c c' : State H} {e : Option (Event H)} (h : c.step = some (c', e)) :
    Stepped c c' e := by
  unfold State.step at h
  cases hm : c.main with
  | outside =>
    rw [hm] at h
    cases h
  | newline line =>
    rw [hm] at h
    obtain ⟨text, hread, heq⟩ := Option.map_eq_some_iff.mp h
    obtain ⟨rfl, rfl⟩ := Prod.mk.inj heq
    exact .newline line text hm hread
  | space line =>
    rw [hm] at h
    obtain ⟨text, hread, heq⟩ := Option.map_eq_some_iff.mp h
    obtain ⟨rfl, rfl⟩ := Prod.mk.inj heq
    exact .space line text hm hread
  | search line cp i =>
    rw [hm] at h
    dsimp only at h
    cases hi : c.commands[i]? with
    | none =>
      rw [hi] at h
      obtain ⟨rfl, rfl⟩ := Prod.mk.inj (Option.some.inj h)
      exact .missing line cp i hm hi
    | some command =>
      rw [hi] at h
      obtain ⟨text, hread, heq⟩ := Option.map_eq_some_iff.mp h
      by_cases hcommand : command.command = text
      · rw [if_pos hcommand] at heq
        obtain ⟨rfl, rfl⟩ := Prod.mk.inj heq
        exact .found line cp i command hm hi (hcommand ▸ hread)
      · rw [if_neg hcommand] at heq
        obtain ⟨rfl, rfl⟩ := Prod.mk.inj heq
        exact .other line cp i command text hm hi hread hcommand
  | calling =>
    rw [hm] at h
    obtain ⟨rfl, rfl⟩ := Prod.mk.inj (Option.some.inj h)
    exact .returned hm
  | erase =>
    rw [hm] at h
    obtain ⟨queue, herase, heq⟩ := Option.map_eq_some_iff.mp h
    obtain ⟨rfl, rfl⟩ := Prod.mk.inj heq
    exact .removed queue hm herase

theorem dispatch_of_found {commands : List (ConsoleCommand H)} {line : Line} {i : ℕ}
    {command : ConsoleCommand H}
    (hno : ∀ command ∈ commands.take i, command.command ≠ cutSpace (cutNewline line))
    (hi : commands[i]? = some command) (hcommand : command.command = cutSpace (cutNewline line)) :
    dispatch commands line = some (command.handleFunc, afterSpace (cutNewline line)) := by
  obtain ⟨hlt, hget⟩ := List.getElem?_eq_some_iff.mp hi
  have hsplit : commands = commands.take i ++ command :: commands.drop (i+1) := by
    rw [← hget, List.getElem_cons_drop, List.take_append_drop]
  have hnone : (commands.take i).find? (·.command = cutSpace (cutNewline line)) = none := by
    rw [List.find?_eq_none]
    exact fun other hother => by simpa using hno other hother
  unfold dispatch
  rw [hsplit, List.find?_append, hnone, List.find?_cons_of_pos (by simpa using hcommand)]
  rfl

theorem dispatch_of_missing {commands : List (ConsoleCommand H)} {line : Line} {i : ℕ}
    (hno : ∀ command ∈ commands.take i, command.command ≠ cutSpace (cutNewline line))
    (hi : commands[i]? = none) : dispatch commands line = none := by
  rw [List.take_of_length_le (List.getElem?_eq_none_iff.mp hi)] at hno
  unfold dispatch
  rw [List.find?_eq_none.mpr fun other hother => by simpa using hno other hother]
  rfl

/-- A step of the main thread serves the first line once, when it has found the command or none. -/
theorem State.Holds.step {commands : List (ConsoleCommand H)} {es : List (Event H)}
    {c c' : State H} {e : Option (Event H)} {waiting : List Line} (h : c.Holds waiting)
    (hs : Serves commands es c.commands waiting) (hstep : c.step = some (c', e)) :
    ∃ waiting', Serves commands (es ++ e.toList) c'.commands waiting' ∧ c'.Holds waiting' := by
  unfold State.Holds at h
  cases State.step_cases hstep with
  | newline address text hm hread =>
    rw [hm] at h
    obtain ⟨rest, hd⟩ := List.head?_eq_some_iff.mp (UtArray.read_eq_some hread).2
    refine ⟨waiting, by rwa [Option.toList_none, List.append_nil], text, rest, ?_, ?_⟩
    · rw [← h.2, hd]
    · show c.queue.d.set 0 _ = _
      rw [hd]
      rfl
  | space address text hm hread =>
    rw [hm] at h
    obtain ⟨line, rest, rfl, hd⟩ := h
    have hhead := (UtArray.read_eq_some hread).2
    rw [hd] at hhead
    obtain rfl := Option.some.inj hhead
    refine ⟨line :: rest, by rwa [Option.toList_none, List.append_nil], line, rest, rfl, ?_, rfl,
      fun _ hmem => by simp at hmem⟩
    show c.queue.d.set 0 _ = _
    rw [hd]
    rfl
  | missing address cp i hm hi =>
    rw [hm] at h
    obtain ⟨line, rest, rfl, hd, rfl, hno⟩ := h
    refine ⟨rest, ?_, _, hd⟩
    rw [← dispatch_of_missing hno hi]
    exact hs.dispatch
  | found address cp i command hm hi hread =>
    rw [hm] at h
    obtain ⟨line, rest, rfl, hd, rfl, hno⟩ := h
    have hhead := (UtArray.read_eq_some hread).2
    rw [hd] at hhead
    refine ⟨rest, ?_, _, hd⟩
    rw [← dispatch_of_found hno hi (Option.some.inj hhead).symm]
    exact hs.dispatch
  | other address cp i command text hm hi hread hne =>
    rw [hm] at h
    obtain ⟨line, rest, rfl, hd, rfl, hno⟩ := h
    have hhead := (UtArray.read_eq_some hread).2
    rw [hd] at hhead
    obtain rfl := Option.some.inj hhead
    refine ⟨line :: rest, by rwa [Option.toList_none, List.append_nil], line, rest, rfl, hd, rfl,
      fun other hother => ?_⟩
    rw [List.take_add_one, hi] at hother
    rcases List.mem_append.mp hother with hother | hother
    · exact hno other hother
    · rw [List.mem_singleton.mp hother]
      exact hne
  | returned hm =>
    rw [hm] at h
    exact ⟨waiting, by rwa [Option.toList_none, List.append_nil], h⟩
  | removed queue hm herase =>
    rw [hm] at h
    obtain ⟨text, hd⟩ := h
    refine ⟨waiting, hs.remove, ?_⟩
    unfold utarrayErase at herase
    rw [hd] at herase
    by_cases hlen : 0+1 ≤ c.queue.i
    · rw [if_pos hlen] at herase
      obtain rfl := Option.some.inj herase
      rfl
    · rw [if_neg hlen] at herase
      cases herase

/-- The console stays behind the server, however the two threads take turns. -/
theorem run_holds {commands : List (ConsoleCommand H)} {es : List (Event H)} {c : State H}
    (h : Run commands es c) : ∃ waiting, Serves commands es c.commands waiting ∧ c.Holds waiting := by
  induction h with
  | start => exact ⟨[], .start, rfl⟩
  | push es c c' line stays h hpush ih =>
    obtain ⟨waiting, hs, hh⟩ := ih
    refine ⟨_, ?_, hh.push hpush⟩
    rw [(c.push_d hpush).2.1]
    exact hs.push _ _ _ _ _
  | add es c new h hmain ih =>
    obtain ⟨waiting, hs, hh⟩ := ih
    refine ⟨waiting, hs.add _ _ _ new, ?_⟩
    unfold State.Holds at hh ⊢
    rcases hmain with hm | hm
    all_goals
      rw [hm] at hh
      show match c.main with | _ => _
      rw [hm]
      exact hh
  | enter es c h hmain ih =>
    obtain ⟨waiting, hs, hh⟩ := ih
    refine ⟨waiting, hs.enter, ?_⟩
    unfold State.Holds at hh
    rw [hmain] at hh
    unfold State.Holds State.enter utarrayFront
    by_cases hempty : c.queue.i ≠ 0
    · rw [if_pos hempty]
      refine ⟨?_, hh⟩
      rintro rfl
      exact hempty (by rw [UtArray.i, hh]; rfl)
    · rw [if_neg hempty]
      exact hh
  | step es c c' e h hstep ih =>
    obtain ⟨waiting, hs, hh⟩ := ih
    exact hh.step hs hstep

/-- The address that the main thread holds. -/
def Main.line : Main → Option ℕ
  | .newline line => some line
  | .space line => some line
  | .search line _ _ => some line
  | _ => none

/-- The storage has been moved since the main thread looked for the first line. -/
def movedSinceEnter (es : List (Event H)) : Bool :=
  es.foldl (fun moved e =>
    match e with
    | .entered => false
    | .pushed _ now => moved || now
    | _ => moved) false

theorem movedSinceEnter_append (es : List (Event H)) (e : Event H) :
    movedSinceEnter (es ++ [e]) =
      match e with
      | .entered => false
      | .pushed _ now => movedSinceEnter es || now
      | _ => movedSinceEnter es := by
  unfold movedSinceEnter
  rw [List.foldl_append]
  cases e <;> rfl

/-- The address is that of the present storage unless the storage has been moved. -/
def State.Current (c : State H) (es : List (Event H)) : Prop :=
  ∀ line, c.main.line = some line →
    line ≤ c.queue.block ∧ (line = c.queue.block ↔ movedSinceEnter es = false)

theorem utarrayReserve_block {a a' : UtArray α} {bys : ℕ} {stays : Bool}
    (h : utarrayReserve a bys stays = some a') : a.block ≤ a'.block := by
  unfold utarrayReserve at h
  by_cases hfull : a.i+bys > a.n
  · rw [if_pos hfull] at h
    obtain ⟨n, _, rfl⟩ := Option.map_eq_some_iff.mp h
    dsimp only
    split_ifs
    · exact Nat.le_refl _
    · exact Nat.le_succ _
  · rw [if_neg hfull] at h
    obtain rfl := Option.some.inj h
    exact Nat.le_refl _

theorem State.Current.push {c c' : State H} {es : List (Event H)} {line : Line} {stays : Bool}
    (h : c.Current es) (hpush : c.push line stays = some c') :
    c'.Current (es ++ [.pushed line (c'.queue.block ≠ c.queue.block)]) := by
  have hmain := (c.push_d hpush).2.2
  have hblock : c.queue.block ≤ c'.queue.block := by
    obtain ⟨queue, hqueue, rfl⟩ := Option.map_eq_some_iff.mp hpush
    obtain ⟨a, ha, rfl⟩ := Option.map_eq_some_iff.mp hqueue
    have hle := utarrayReserve_block ha
    exact hle
  intro address haddress
  rw [hmain] at haddress
  obtain ⟨hle, hiff⟩ := h address haddress
  refine ⟨Nat.le_trans hle hblock, ?_⟩
  rw [movedSinceEnter_append]
  dsimp only
  rw [Bool.or_eq_false_iff, ← hiff, decide_eq_false_iff_not, not_not]
  constructor
  · intro heq
    exact ⟨by omega, by omega⟩
  · rintro ⟨heq, hsame⟩
    omega

/-- A step of the main thread neither moves the storage nor looks for another line. -/
theorem State.line_step {c c' : State H} {e : Option (Event H)} (hstep : c.step = some (c', e))
    (es : List (Event H)) :
    c'.queue.block = c.queue.block ∧ (c'.main.line = none ∨ c'.main.line = c.main.line) ∧
      movedSinceEnter (es ++ e.toList) = movedSinceEnter es := by
  cases State.step_cases hstep with
  | newline line text hm hread =>
    exact ⟨rfl, Or.inr (by rw [hm]; rfl), by rw [Option.toList_none, List.append_nil]⟩
  | space line text hm hread =>
    exact ⟨rfl, Or.inr (by rw [hm]; rfl), by rw [Option.toList_none, List.append_nil]⟩
  | missing line cp i hm hi => exact ⟨rfl, Or.inl rfl, movedSinceEnter_append _ _⟩
  | found line cp i command hm hi hread => exact ⟨rfl, Or.inl rfl, movedSinceEnter_append _ _⟩
  | other line cp i command text hm hi hread hne =>
    exact ⟨rfl, Or.inr (by rw [hm]; rfl), by rw [Option.toList_none, List.append_nil]⟩
  | returned hm => exact ⟨rfl, Or.inl rfl, by rw [Option.toList_none, List.append_nil]⟩
  | removed queue hm herase =>
    refine ⟨?_, Or.inl rfl, movedSinceEnter_append _ _⟩
    unfold utarrayErase at herase
    split_ifs at herase
    rw [← Option.some.inj herase]

theorem run_current {commands : List (ConsoleCommand H)} {es : List (Event H)} {c : State H}
    (h : Run commands es c) : c.Current es := by
  induction h with
  | start => exact fun _ hno => by cases hno
  | push es c c' line stays h hpush ih => exact ih.push hpush
  | add es c new h hmain ih =>
    intro address haddress
    rcases hmain with hm | hm
    all_goals
      dsimp only at haddress
      rw [hm] at haddress
      cases haddress
  | enter es c h hmain ih =>
    intro address haddress
    unfold State.enter utarrayFront at haddress ⊢
    rw [movedSinceEnter_append]
    by_cases hempty : c.queue.i ≠ 0
    · rw [if_pos hempty] at haddress
      obtain rfl := Option.some.inj haddress
      exact ⟨Nat.le_refl _, by simp⟩
    · rw [if_neg hempty] at haddress
      cases haddress
  | step es c c' e h hstep ih =>
    obtain ⟨hblock, hline, hmoved⟩ := State.line_step hstep es
    intro address haddress
    rcases hline with hno | hline
    · rw [hno] at haddress
      cases haddress
    · rw [hline] at haddress
      obtain ⟨hle, hiff⟩ := ih address haddress
      rw [hblock, hmoved]
      exact ⟨hle, hiff⟩

theorem consoleCommandAdd_nodup {commands : List (ConsoleCommand H)} (new : ConsoleCommand H)
    (h : (commands.map (·.command)).Nodup) :
    ((consoleCommandAdd commands new).map (·.command)).Nodup := by
  unfold consoleCommandAdd
  split_ifs with hany
  · exact h
  · rw [List.map_append, List.nodup_append]
    refine ⟨h, by simp, ?_⟩
    rintro name hname other hother rfl
    obtain ⟨command, hmem, rfl⟩ := List.mem_map.mp hname
    rw [List.map_singleton, List.mem_singleton] at hother
    exact hany (List.any_eq_true.mpr ⟨command, hmem, by simpa using hother⟩)

theorem consoleCommandAdd_begins (commands : List (ConsoleCommand H)) (new : ConsoleCommand H) :
    commands <+: consoleCommandAdd commands new := by
  unfold consoleCommandAdd
  split_ifs
  · exact List.prefix_refl _
  · exact List.prefix_append _ _

/-- Commands stay, and no two have one name. -/
theorem run_commands {commands : List (ConsoleCommand H)} {es : List (Event H)} {c : State H}
    (h : Run commands es c) (hnodup : (commands.map (·.command)).Nodup) :
    commands <+: c.commands ∧ (c.commands.map (·.command)).Nodup := by
  induction h with
  | start => exact ⟨List.prefix_refl _, hnodup⟩
  | push es c c' line stays h hpush ih =>
    rw [(c.push_d hpush).2.1]
    exact ih
  | add es c new h hmain ih =>
    exact ⟨ih.1.trans (consoleCommandAdd_begins _ new), consoleCommandAdd_nodup new ih.2⟩
  | enter es c h hmain ih => exact ih
  | step es c c' e h hstep ih =>
    have hsame : c'.commands = c.commands := by
      cases State.step_cases hstep <;> rfl
    rw [hsame]
    exact ih

/-- However the two threads take turns, each line is served once, in the order in which the lines
were appended, by the handler of the one command that is named in it, or by none if there is no such
command then. A run ends where the main thread reads storage that has been freed. -/
theorem console_serves_in_order (commands : List (ConsoleCommand H))
    (hnodup : (commands.map (·.command)).Nodup) (es : List (Event H)) (c : State H)
    (h : Run commands es c) :
    commands <+: c.commands ∧ (c.commands.map (·.command)).Nodup ∧
    ∃ waiting, Serves commands es c.commands waiting ∧
      (c.main = .outside → c.queue.d = waiting) := by
  obtain ⟨hbegins, hnodup'⟩ := run_commands h hnodup
  obtain ⟨waiting, hs, hh⟩ := run_holds h
  refine ⟨hbegins, hnodup', waiting, hs, fun hm => ?_⟩
  unfold State.Holds at hh
  rwa [hm] at hh

/-- A line for the help command while a second line comes in. -/
theorem console_serves_in_order_help :
    ∃ es, ∃ c : State Unit, es.length = 5 ∧
      ∃ waiting, Serves [⟨[104], (), [], []⟩] es c.commands waiting ∧
        (c.main = .outside → c.queue.d = waiting) := by
  have hrun : Run [⟨[104], (), [], []⟩] _ _ :=
    .step _ _ _ _ (.step _ _ _ _ (.step _ _ _ _ (.step _ _ _ _ (.push _ _ _ [120] true
      (.step _ _ _ _ (.enter _ _ (.push _ _ _ [104, 32, 99, 10] true .start rfl) rfl) rfl) rfl)
      rfl) rfl) rfl) rfl
  exact ⟨_, _, rfl, (console_serves_in_order _ (by decide) _ _ hrun).2.2⟩

/-- The next step of the main thread reads the line. -/
def State.Reads (c : State H) : Prop :=
  match c.main with
  | .newline _ => True
  | .space _ => True
  | .search _ _ i => i < c.commands.length
  | _ => False

theorem State.Holds.d_ne_nil {c : State H} {waiting : List Line} (h : c.Holds waiting)
    (hmain : c.main ≠ .outside) : c.queue.d ≠ [] := by
  unfold State.Holds at h
  intro hnil
  cases hm : c.main with
  | outside => exact hmain hm
  | newline line =>
    rw [hm] at h
    exact h.1 (h.2.symm.trans hnil)
  | space line =>
    rw [hm] at h
    obtain ⟨_, _, _, hd⟩ := h
    rw [hnil] at hd
    cases hd
  | search line cp i =>
    rw [hm] at h
    obtain ⟨_, _, _, hd, _⟩ := h
    rw [hnil] at hd
    cases hd
  | calling =>
    rw [hm] at h
    obtain ⟨_, hd⟩ := h
    rw [hnil] at hd
    cases hd
  | erase =>
    rw [hm] at h
    obtain ⟨_, hd⟩ := h
    rw [hnil] at hd
    cases hd

theorem UtArray.read_eq_none_iff {a : UtArray α} {address : ℕ} (hd : a.d ≠ []) :
    a.read address = none ↔ address ≠ a.block := by
  unfold UtArray.read
  by_cases hb : address = a.block
  · rw [if_pos hb, List.head?_eq_none_iff]
    exact ⟨fun hno => absurd hno hd, fun hno => absurd hb hno⟩
  · rw [if_neg hb]
    exact ⟨fun _ => hb, fun _ => rfl⟩

/-- A step of the main thread faults if it reads the line and the storage has been moved. -/
theorem step_eq_none_iff {commands : List (ConsoleCommand H)} {es : List (Event H)} {c : State H}
    (h : Run commands es c) (hmain : c.main ≠ .outside) :
    c.step = none ↔ c.Reads ∧ movedSinceEnter es = true := by
  obtain ⟨waiting, _, hh⟩ := run_holds h
  have hd := hh.d_ne_nil hmain
  have hread (line : ℕ) (hline : c.main.line = some line) :
      c.queue.read line = none ↔ movedSinceEnter es = true := by
    rw [UtArray.read_eq_none_iff hd, ne_eq, (run_current h line hline).2, Bool.not_eq_false]
  unfold State.step State.Reads
  cases hm : c.main with
  | outside => exact absurd hm hmain
  | newline line =>
    rw [hm] at hread
    simp only [Option.map_eq_none_iff, true_and]
    exact hread line rfl
  | space line =>
    rw [hm] at hread
    simp only [Option.map_eq_none_iff, true_and]
    exact hread line rfl
  | search line cp i =>
    rw [hm] at hread
    dsimp only
    cases hi : c.commands[i]? with
    | none =>
      have hle := List.getElem?_eq_none_iff.mp hi
      exact ⟨fun hno => (by cases hno), fun hno => absurd hno.1 (Nat.not_lt.mpr hle)⟩
    | some command =>
      have hlt := (List.getElem?_eq_some_iff.mp hi).1
      simp only [Option.map_eq_none_iff, hlt, true_and]
      exact hread line rfl
  | calling => exact ⟨fun hno => (by cases hno), fun hno => hno.1.elim⟩
  | erase =>
    refine ⟨fun hno => ?_, fun hno => hno.1.elim⟩
    -- the line is still there to be removed
    have hlen : 0+1 ≤ c.queue.i := List.length_pos_iff.mpr hd
    rw [Option.map_eq_none_iff, utarrayErase, if_pos hlen] at hno
    cases hno

def Event.isPushed : Event H → Bool
  | .pushed _ _ => true
  | _ => false

def Event.isRemoved : Event H → Bool
  | .removed => true
  | _ => false

def appended (es : List (Event H)) : ℕ := es.countP Event.isPushed

def removed (es : List (Event H)) : ℕ := es.countP Event.isRemoved

/-- No append made the array hold more than its first eight elements. -/
def FewLines (es : List (Event H)) : Prop := ∀ first, first <+: es → appended first ≤ removed first+8

theorem FewLines.of_append {es rest : List (Event H)} (h : FewLines (es ++ rest)) : FewLines es :=
  fun first hfirst => h first (hfirst.trans (List.prefix_append _ _))

/-- The capacity of an array is a multiple of eight and not exceeded. -/
structure UtArray.Sized (a : UtArray α) : Prop where
  le : a.i ≤ a.n
  dvd : 8 ∣ a.n

theorem utarrayGrow_eq_some {need n n' : ℕ} (h : utarrayGrow need n = some n') (hn : 8 ∣ n) :
    need ≤ n' ∧ 8 ∣ n' := by
  obtain ⟨last, hlast, hleave⟩ := FuelLoop.run_invariant _ (fun n => 8 ∣ n) (by
    intro n next hn hnext
    by_cases hmore : need > n
    · rw [if_pos hmore] at hnext
      obtain rfl := Sum.inl.inj hnext
      split_ifs
      · exact Nat.dvd_refl 8
      · omega
    · rw [if_neg hmore] at hnext
      cases hnext) 64 n n' hn h
  by_cases hmore : need > last
  · rw [if_pos hmore] at hleave
    cases hleave
  · rw [if_neg hmore] at hleave
    obtain rfl := Sum.inr.inj hleave
    exact ⟨by omega, hlast⟩

theorem utarrayReserve_sized {a a' : UtArray α} {bys : ℕ} {stays : Bool} (ha : a.Sized)
    (h : utarrayReserve a bys stays = some a') :
    a.i+bys ≤ a'.n ∧ 8 ∣ a'.n ∧ (a.i+bys ≤ a.n → a' = a) := by
  unfold utarrayReserve at h
  by_cases hfull : a.i+bys > a.n
  · rw [if_pos hfull] at h
    obtain ⟨n, hn, rfl⟩ := Option.map_eq_some_iff.mp h
    obtain ⟨hle, hdvd⟩ := utarrayGrow_eq_some hn ha.dvd
    exact ⟨hle, hdvd, fun hno => by omega⟩
  · rw [if_neg hfull] at h
    obtain rfl := Option.some.inj h
    exact ⟨by omega, ha.dvd, fun _ => rfl⟩

/-- The array and the events agree on how many lines there are. -/
structure Counted (es : List (Event H)) (c : State H) : Prop where
  sized : c.queue.Sized
  count : c.queue.i+removed es = appended es

theorem Counted.push {es : List (Event H)} {c c' : State H} {line : Line} {stays : Bool}
    (h : Counted es c) (hpush : c.push line stays = some c') (moved : Bool) :
    Counted (es ++ [.pushed line moved]) c' ∧
      (c.queue.i+1 ≤ c.queue.n → c'.queue.block = c.queue.block) := by
  obtain ⟨queue, hqueue, rfl⟩ := Option.map_eq_some_iff.mp hpush
  obtain ⟨a, ha, rfl⟩ := Option.map_eq_some_iff.mp hqueue
  obtain ⟨hle, hdvd, hsame⟩ := utarrayReserve_sized h.sized ha
  have hlen : (a.d ++ [strdup line]).length = c.queue.i+1 := by
    rw [List.length_append, utarrayReserve_d ha]
    rfl
  refine ⟨⟨⟨by rwa [UtArray.i, hlen], hdvd⟩, ?_⟩, fun hroom => ?_⟩
  · have hcount := h.count
    unfold removed appended at hcount ⊢
    rw [List.countP_append, List.countP_append, UtArray.i, hlen]
    show c.queue.i+1+(List.countP Event.isRemoved es+0) = List.countP Event.isPushed es+1
    omega
  · show a.block = _
    rw [hsame hroom]

/-- An event that neither appends nor removes. -/
theorem Counted.quiet {es : List (Event H)} {c c' : State H} {e : Event H} (h : Counted es c)
    (hd : c'.queue.i = c.queue.i) (hn : c'.queue.n = c.queue.n) (hpushed : e.isPushed = false)
    (hremoved : e.isRemoved = false) : Counted (es ++ [e]) c' := by
  refine ⟨⟨by rw [hd, hn]; exact h.sized.le, by rw [hn]; exact h.sized.dvd⟩, ?_⟩
  have hcount := h.count
  unfold removed appended at hcount ⊢
  rw [List.countP_append, List.countP_append, List.countP_singleton, List.countP_singleton,
    hpushed, hremoved, hd]
  exact hcount

theorem Counted.step {es : List (Event H)} {c c' : State H} {e : Option (Event H)}
    (h : Counted es c) (hstep : c.step = some (c', e)) : Counted (es ++ e.toList) c' := by
  have hwrite (text : Line) : (c.queue.write text).i = c.queue.i := List.length_set
  cases State.step_cases hstep with
  | newline line text hm hread =>
    rw [Option.toList_none, List.append_nil]
    exact ⟨⟨(hwrite _).trans_le h.sized.le, h.sized.dvd⟩, (congrArg (·+_) (hwrite _)).trans h.count⟩
  | space line text hm hread =>
    rw [Option.toList_none, List.append_nil]
    exact ⟨⟨(hwrite _).trans_le h.sized.le, h.sized.dvd⟩, (congrArg (·+_) (hwrite _)).trans h.count⟩
  | missing line cp i hm hi => exact h.quiet rfl rfl rfl rfl
  | found line cp i command hm hi hread => exact h.quiet rfl rfl rfl rfl
  | other line cp i command text hm hi hread hne =>
    rw [Option.toList_none, List.append_nil]
    exact ⟨h.sized, h.count⟩
  | returned hm =>
    rw [Option.toList_none, List.append_nil]
    exact ⟨h.sized, h.count⟩
  | removed queue hm herase =>
    unfold utarrayErase at herase
    split_ifs at herase with hlen
    obtain rfl := Option.some.inj herase
    have hcount := h.count
    have hle := h.sized.le
    have hd : (List.take 0 c.queue.d ++ c.queue.d.drop (0+1)).length = c.queue.i-1 := by
      rw [List.take_zero, List.nil_append, List.length_drop]
      rfl
    refine ⟨⟨?_, h.sized.dvd⟩, ?_⟩
    · show (List.take 0 c.queue.d ++ c.queue.d.drop (0+1)).length ≤ c.queue.n
      omega
    · unfold Console.removed appended at hcount ⊢
      rw [Option.toList_some, List.countP_append, List.countP_append, UtArray.i, hd]
      show c.queue.i-1+(List.countP Event.isRemoved es+1) = List.countP Event.isPushed es+0
      omega

theorem run_counted {commands : List (ConsoleCommand H)} {es : List (Event H)} {c : State H}
    (h : Run commands es c) : Counted es c := by
  induction h with
  | start => exact ⟨⟨Nat.le_refl 0, Nat.dvd_zero 8⟩, rfl⟩
  | push es c c' line stays h hpush ih => exact (ih.push hpush _).1
  | add es c new h hmain ih => exact ih.quiet rfl rfl rfl rfl
  | enter es c h hmain ih => exact ih.quiet rfl rfl rfl rfl
  | step es c c' e h hstep ih => exact ih.step hstep

/-- Eight elements fit into the storage that the first append gets. -/
theorem run_not_moved {commands : List (ConsoleCommand H)} {es : List (Event H)} {c : State H}
    (h : Run commands es c) (hfew : FewLines es) (hline : c.main.line ≠ none) :
    movedSinceEnter es = false := by
  induction h with
  | start => exact absurd rfl hline
  | push es c c' line stays h hpush ih =>
    have hmain := (c.push_d hpush).2.2
    rw [hmain] at hline
    obtain ⟨waiting, _, hh⟩ := run_holds h
    have hd : c.queue.d ≠ [] := hh.d_ne_nil fun hno => hline (by rw [hno]; rfl)
    have hcounted := run_counted h
    -- the array holds at most eight elements afterwards
    obtain ⟨hnext, hkept⟩ := hcounted.push hpush (c'.queue.block ≠ c.queue.block)
    have hfull := hfew _ (List.prefix_refl _)
    have hcount := hnext.count
    have hi : c'.queue.i = c.queue.i+1 := by
      rw [UtArray.i, (c.push_d hpush).1, List.length_append]
      rfl
    have hpos : 0 < c.queue.i := List.length_pos_iff.mpr hd
    have hle := hcounted.sized.le
    obtain ⟨k, hk⟩ := hcounted.sized.dvd
    have hsame := hkept (by omega)
    rw [movedSinceEnter_append]
    dsimp only
    rw [ih hfew.of_append hline, hsame]
    simp
  | add es c new h hmain ih =>
    rw [movedSinceEnter_append]
    exact ih hfew.of_append hline
  | enter es c h hmain ih =>
    rw [movedSinceEnter_append]
  | step es c c' e h hstep ih =>
    obtain ⟨_, hsame, hmoved⟩ := State.line_step hstep es
    rw [hmoved]
    refine ih hfew.of_append ?_
    rcases hsame with hno | hsame
    · exact absurd hno hline
    · rwa [← hsame]

theorem State.Reads.line {c : State H} (h : c.Reads) : c.main.line ≠ none := by
  unfold State.Reads at h
  cases hm : c.main with
  | newline line => exact nofun
  | space line => exact nofun
  | search line cp i => exact nofun
  | outside =>
    rw [hm] at h
    exact h.elim
  | calling =>
    rw [hm] at h
    exact h.elim
  | erase =>
    rw [hm] at h
    exact h.elim

/-- The main thread uses a line after the storage of the queue has been freed exactly if an append
has moved it in the meantime. That needs more than eight lines at one time, with the one that is being
served. -/
theorem console_faults_iff (commands : List (ConsoleCommand H)) (es : List (Event H)) (c : State H)
    (h : Run commands es c) (hmain : c.main ≠ .outside) :
    (c.step = none ↔ c.Reads ∧ movedSinceEnter es = true) ∧
    (FewLines es → c.step ≠ none) := by
  have hiff := step_eq_none_iff h hmain
  refine ⟨hiff, fun hfew hno => ?_⟩
  obtain ⟨hreads, hmoved⟩ := hiff.mp hno
  rw [run_not_moved h hfew hreads.line] at hmoved
  cases hmoved

/-- Eight lines, of which the main thread takes the first, and a ninth one. -/
theorem console_faults_iff_ninth :
    ∃ es, ∃ c : State Unit, Run [] es c ∧ c.main ≠ .outside ∧ c.step = none := by
  have hrun : Run ([] : List (ConsoleCommand Unit)) _ _ := .push _ _ _ [97] false (.enter _ _
    (.push _ _ _ [97] true (.push _ _ _ [97] true (.push _ _ _ [97] true (.push _ _ _ [97] true
      (.push _ _ _ [97] true (.push _ _ _ [97] true (.push _ _ _ [97] true (.push _ _ _ [97] true
        .start rfl) rfl) rfl) rfl) rfl) rfl) rfl) rfl) rfl) rfl
  exact ⟨_, _, hrun, by rintro ⟨⟩,
    (console_faults_iff _ _ _ hrun (by rintro ⟨⟩)).1.mpr ⟨trivial, rfl⟩⟩

end LibAtrinik.Console

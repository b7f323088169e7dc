import Mathlib.Data.List.Basic
import Mathlib.Logic.Function.Basic
import Mathlib.Tactic.Common

/-! What a child writes to its standard output and error until its process is cleaned up. A pass of
the checking functions polls the pipes, reads one block from each and asks whether the child has
exited; the child may write and close its ends at any moment between these. -/
namespace LibAtrinik.ChildOutput

section Code

/-- `HUGE_BUF`. -/
def hugeBuf : ℕ := 4096

/-- `PROCESS_PIPE_OUT` and `PROCESS_PIPE_ERR`. -/
inductive PipeType where
  | out | err
deriving DecidableEq, Repr

/-- A pipe, with everything that was ever written to it, what has not been read yet, whether the
child has closed its end, and the blocks that were given to the callback. -/
structure Pipe where
  written : List UInt8
  unread : List UInt8
  closed : Bool
  blocks : List (List UInt8)

/-- What a poll has found, and how much the reads after it take at most. -/
structure Polled where
  hangup : PipeType → Bool
  takes : PipeType → ℕ

/-- Where the checking functions are. -/
inductive Phase where
  | idle
  | pipeOut (polled : Polled)
  | pipeErr (polled : Polled)
  | checkExit
  | cleaned

structure State where
  pipes : PipeType → Pipe
  phase : Phase

/-- The bytes that `read` gives. -/
def readBlock (p : Pipe) (take : ℕ) : List UInt8 := p.unread.take (min take hugeBuf)

/-- `process_check_internal_pipe` for an output pipe. -/
def checkPipe (p : Pipe) (take : ℕ) : Pipe :=
  let block := readBlock p take
  if block = [] then p
  else { p with unread := p.unread.drop block.length, blocks := p.blocks ++ [block] }

/-- The step of the loop of `process_check_internal_end` for a pipe. -/
def checkEnd (polled : Polled) (type : PipeType) (p : Pipe) : Pipe :=
  if polled.hangup type then p else checkPipe p (polled.takes type)

/-- `process_check_internal_poll`, where `ready` is whether some other descriptor is ready. -/
def pollReady (s : State) (ready : Bool) : Bool :=
  ready || (s.pipes .out).unread ≠ [] || (s.pipes .out).closed || (s.pipes .err).unread ≠ [] ||
    (s.pipes .err).closed

/-- What the child and the checking functions do. -/
inductive Event where
  | write (type : PipeType) (bytes : List UInt8)
  | close (type : PipeType)
  | poll (ready : Bool) (takes : PipeType → ℕ)
  | endPipe
  | waitpid (exited : Bool)

def State.setPipe (s : State) (type : PipeType) (p : Pipe) : State :=
  { s with pipes := Function.update s.pipes type p }

def State.step (s : State) : Event → Option State
  | .write type bytes =>
    let p := s.pipes type
    if p.closed then none
    else some (s.setPipe type { p with written := p.written ++ bytes, unread := p.unread ++ bytes })
  | .close type =>
    let p := s.pipes type
    if p.closed then none else some (s.setPipe type { p with closed := true })
  | .poll ready takes =>
    match s.phase with
    | .idle =>
      if pollReady s ready then
        some { s with phase := .pipeOut ⟨fun type => (s.pipes type).closed, takes⟩ }
      else some { s with phase := .checkExit }
    | _ => none
  | .endPipe =>
    match s.phase with
    | .pipeOut polled =>
      some { s.setPipe .out (checkEnd polled .out (s.pipes .out)) with phase := .pipeErr polled }
    | .pipeErr polled =>
      some { s.setPipe .err (checkEnd polled .err (s.pipes .err)) with phase := .checkExit }
    | _ => none
  | .waitpid exited =>
    match s.phase with
    | .checkExit =>
      if exited = false then some { s with phase := .idle }
      -- a child that has exited has closed its ends
      else if (s.pipes .out).closed ∧ (s.pipes .err).closed then some { s with phase := .cleaned }
      else none
    | _ => none

def State.run (s : State) : List Event → Option State
  | [] => some s
  | event :: events =>
    match s.step event with
    | some s' => s'.run events
    | none => none

/-- A child that has just been started. -/
def State.start : State := ⟨fun _ => ⟨[], [], false, []⟩, .idle⟩

/-- The bytes that the callback of a pipe was called with. -/
def Pipe.delivered (p : Pipe) : List UInt8 := p.blocks.flatten

end Code

section Condition

/-- The pass that is going on will read a pipe, and has found no hangup on it. -/
def Phase.reads : Phase → PipeType → Option ℕ
  | .pipeOut polled, type => if polled.hangup type then none else some (polled.takes type)
  | .pipeErr polled, .err => if polled.hangup .err then none else some (polled.takes .err)
  | _, _ => none

/-- Nothing waits in a pipe, or the pass that is going on will read all that does. -/
def Drained (s : State) (type : PipeType) : Prop :=
  (s.pipes type).unread = [] ∨
    ∃ take, s.phase.reads type = some take ∧ (s.pipes type).unread.length ≤ min take hugeBuf

/-- The child closes a pipe only when it is drained. -/
def ClosesDrained (type : PipeType) : State → List Event → Prop
  | _, [] => True
  | s, event :: events =>
    (event = .close type → (s.pipes type).closed = false → Drained s type) ∧
      ∀ s', s.step event = some s' → ClosesDrained type s' events

end Condition

section Pipes

variable {type : PipeType} {s s' : State}

/-- What is read comes from what waits, and nothing is lost in between. -/
def Pipe.Kept (p : Pipe) : Prop := p.delivered ++ p.unread = p.written

theorem checkPipe_kept (p : Pipe) (take : ℕ) (h : p.Kept) : (checkPipe p take).Kept := by
  unfold checkPipe
  by_cases hempty : readBlock p take = []
  · dsimp only
    rw [if_pos hempty]
    exact h
  · dsimp only
    rw [if_neg hempty]
    have hsplit : readBlock p take ++ p.unread.drop (readBlock p take).length = p.unread := by
      have hprefix : readBlock p take <+: p.unread := List.take_prefix _ _
      exact List.prefix_iff_eq_append.mp hprefix
    unfold Pipe.Kept Pipe.delivered at h ⊢
    dsimp only
    rw [List.flatten_append, List.flatten_singleton, List.append_assoc, hsplit, h]

theorem checkPipe_unread (p : Pipe) (take : ℕ) :
    (checkPipe p take).unread = [] ↔ p.unread = [] ∨ p.unread.length ≤ min take hugeBuf := by
  unfold checkPipe
  dsimp only
  have hlength : (readBlock p take).length = min (min take hugeBuf) p.unread.length :=
    List.length_take
  by_cases hempty : readBlock p take = []
  · rw [if_pos hempty]
    constructor
    · exact Or.inl
    · intro h
      rcases h with hnil | hle
      · exact hnil
      · rw [hempty, List.length_nil] at hlength
        apply List.eq_nil_of_length_eq_zero
        omega
  · rw [if_neg hempty]
    dsimp only
    rw [List.drop_eq_nil_iff, hlength]
    constructor
    · intro hle
      exact Or.inr (by omega)
    · intro h
      rcases h with hnil | hle
      · rw [hnil]
        exact Nat.zero_le _
      · omega

theorem checkPipe_closed (p : Pipe) (take : ℕ) : (checkPipe p take).closed = p.closed := by
  unfold checkPipe
  dsimp only
  split <;> rfl

theorem checkEnd_kept (polled : Polled) (p : Pipe) (h : p.Kept) : (checkEnd polled type p).Kept := by
  unfold checkEnd
  split
  · exact h
  · exact checkPipe_kept p _ h

theorem checkEnd_closed (polled : Polled) (p : Pipe) :
    (checkEnd polled type p).closed = p.closed := by
  unfold checkEnd
  split
  · rfl
  · exact checkPipe_closed p _

theorem setPipe_self (p : Pipe) : (s.setPipe type p).pipes type = p := Function.update_self _ _ _

theorem setPipe_other {type' : PipeType} (p : Pipe) (h : type' ≠ type) :
    (s.setPipe type p).pipes type' = s.pipes type' := Function.update_of_ne h _ _

theorem drained_congr (hunread : (s'.pipes type).unread = (s.pipes type).unread)
    (hreads : s'.phase.reads type = s.phase.reads type) : Drained s' type ↔ Drained s type := by
  unfold Drained
  rw [hunread, hreads]

/-- A pipe that is served is drained as far as it was to be. -/
theorem drained_served (polled : Polled)
    (hbefore : s.phase.reads type =
      if polled.hangup type then none else some (polled.takes type))
    (hafter : s'.phase.reads type = none)
    (hpipe : s'.pipes type = checkEnd polled type (s.pipes type)) :
    Drained s' type ↔ Drained s type := by
  unfold Drained
  rw [hbefore, hafter, hpipe]
  unfold checkEnd
  by_cases hhangup : polled.hangup type = true
  · rw [if_pos hhangup, if_pos hhangup]
  · rw [if_neg hhangup, if_neg hhangup, checkPipe_unread]
    constructor
    · intro h
      rcases h with (hnil | hle) | ⟨take, htake, _⟩
      · exact Or.inl hnil
      · exact Or.inr ⟨_, rfl, hle⟩
      · cases htake
    · intro h
      rcases h with hnil | ⟨take, htake, hle⟩
      · exact Or.inl (Or.inl hnil)
      · rw [← Option.some.inj htake] at hle
        exact Or.inl (Or.inr hle)

end Pipes

section Steps

variable {type : PipeType} {s s' : State} {event : Event}

/-- What a step can do. -/
inductive Stepped (s : State) : Event → State → Prop
  | write (type : PipeType) (bytes : List UInt8) (hopen : ¬(s.pipes type).closed = true) :
    Stepped s (.write type bytes) (s.setPipe type { s.pipes type with
      written := (s.pipes type).written ++ bytes, unread := (s.pipes type).unread ++ bytes })
  | close (type : PipeType) (hopen : ¬(s.pipes type).closed = true) :
    Stepped s (.close type) (s.setPipe type { s.pipes type with closed := true })
  | polled (ready : Bool) (takes : PipeType → ℕ) (hphase : s.phase = .idle) :
    Stepped s (.poll ready takes)
      { s with phase := .pipeOut ⟨fun type => (s.pipes type).closed, takes⟩ }
  | quiet (ready : Bool) (takes : PipeType → ℕ) (hphase : s.phase = .idle) :
    Stepped s (.poll ready takes) { s with phase := .checkExit }
  | endOut (polled : Polled) (hphase : s.phase = .pipeOut polled) :
    Stepped s .endPipe
      { s.setPipe .out (checkEnd polled .out (s.pipes .out)) with phase := .pipeErr polled }
  | endErr (polled : Polled) (hphase : s.phase = .pipeErr polled) :
    Stepped s .endPipe
      { s.setPipe .err (checkEnd polled .err (s.pipes .err)) with phase := .checkExit }
  | runs (exited : Bool) (hphase : s.phase = .checkExit) :
    Stepped s (.waitpid exited) { s with phase := .idle }
  | exits (exited : Bool) (hphase : s.phase = .checkExit)
    (hclosed : ∀ type, (s.pipes type).closed = true) :
    Stepped s (.waitpid exited) { s with phase := .cleaned }

theorem step_cases (hstep : s.step event = some s') : Stepped s event s' := by
  cases event with
  | write type' bytes =>
    by_cases hopen : (s.pipes type').closed = true
    · have hnone : s.step (.write type' bytes) = none := if_pos hopen
      rw [hnone] at hstep
      cases hstep
    · have hsome := (if_neg hopen).symm.trans hstep
      rw [← Option.some.inj hsome]
      exact .write type' bytes hopen
  | close type' =>
    by_cases hopen : (s.pipes type').closed = true
    · have hnone : s.step (.close type') = none := if_pos hopen
      rw [hnone] at hstep
      cases hstep
    · have hsome := (if_neg hopen).symm.trans hstep
      rw [← Option.some.inj hsome]
      exact .close type' hopen
  | poll ready takes =>
    cases hphase : s.phase with
    | idle =>
      simp only [State.step, hphase] at hstep
      split at hstep
      · rw [← Option.some.inj hstep]
        exact .polled ready takes hphase
      · rw [← Option.some.inj hstep]
        exact .quiet ready takes hphase
    | _ =>
      simp only [State.step, hphase] at hstep
      cases hstep
  | endPipe =>
    cases hphase : s.phase with
    | pipeOut polled =>
      simp only [State.step, hphase] at hstep
      rw [← Option.some.inj hstep]
      exact .endOut polled hphase
    | pipeErr polled =>
      simp only [State.step, hphase] at hstep
      rw [← Option.some.inj hstep]
      exact .endErr polled hphase
    | _ =>
      simp only [State.step, hphase] at hstep
      cases hstep
  | waitpid exited =>
    cases hphase : s.phase with
    | checkExit =>
      simp only [State.step, hphase] at hstep
      split at hstep
      · rw [← Option.some.inj hstep]
        exact .runs exited hphase
      · split at hstep
        · rename_i hclosed
          rw [← Option.some.inj hstep]
          apply Stepped.exits exited hphase
          intro type
          cases type with
          | out => exact hclosed.1
          | err => exact hclosed.2
        · cases hstep
    | _ =>
      simp only [State.step, hphase] at hstep
      cases hstep

/-- Once the child has closed its end, whether everything will be read is settled. -/
theorem step_closed (hclosed : (s.pipes type).closed = true) (hstep : s.step event = some s') :
    (s'.pipes type).closed = true ∧ (Drained s' type ↔ Drained s type) := by
  cases step_cases hstep with
  | write type' bytes hopen =>
    have hne : type ≠ type' := fun heq => hopen (heq ▸ hclosed)
    rw [setPipe_other _ hne]
    exact ⟨hclosed, drained_congr (by rw [setPipe_other _ hne]) rfl⟩
  | close type' hopen =>
    have hne : type ≠ type' := fun heq => hopen (heq ▸ hclosed)
    rw [setPipe_other _ hne]
    exact ⟨hclosed, drained_congr (by rw [setPipe_other _ hne]) rfl⟩
  | polled ready takes hphase =>
    refine ⟨hclosed, drained_congr rfl ?_⟩
    rw [hphase]
    -- the poll has found the hangup
    exact if_pos hclosed
  | quiet ready takes hphase => exact ⟨hclosed, drained_congr rfl (by rw [hphase]; rfl)⟩
  | endOut polled hphase =>
    cases type with
    | out =>
      have hself := @setPipe_self .out s (checkEnd polled .out (s.pipes .out))
      exact ⟨(congrArg Pipe.closed hself).trans ((checkEnd_closed polled _).trans hclosed),
        drained_served polled (by rw [hphase]; rfl) rfl hself⟩
    | err =>
      have hother := @setPipe_other .out s .err (checkEnd polled .out (s.pipes .out)) (by decide)
      exact ⟨(congrArg Pipe.closed hother).trans hclosed,
        drained_congr (congrArg Pipe.unread hother) (by rw [hphase]; rfl)⟩
  | endErr polled hphase =>
    cases type with
    | err =>
      have hself := @setPipe_self .err s (checkEnd polled .err (s.pipes .err))
      exact ⟨(congrArg Pipe.closed hself).trans ((checkEnd_closed polled _).trans hclosed),
        drained_served polled (by rw [hphase]; rfl) rfl hself⟩
    | out =>
      have hother := @setPipe_other .err s .out (checkEnd polled .err (s.pipes .err)) (by decide)
      exact ⟨(congrArg Pipe.closed hother).trans hclosed,
        drained_congr (congrArg Pipe.unread hother) (by rw [hphase]; rfl)⟩
  | runs exited hphase => exact ⟨hclosed, drained_congr rfl (by rw [hphase]; rfl)⟩
  | exits exited hphase _ => exact ⟨hclosed, drained_congr rfl (by rw [hphase]; rfl)⟩

theorem setPipe_closed {type' : PipeType} (p : Pipe) (hp : p.closed = (s.pipes type').closed) :
    ((s.setPipe type' p).pipes type).closed = (s.pipes type).closed := by
  by_cases heq : type = type'
  · rw [heq, setPipe_self, hp]
  · rw [setPipe_other p heq]

/-- Only the child closes its end. -/
theorem step_open (hevent : event ≠ .close type) (hstep : s.step event = some s') :
    (s'.pipes type).closed = (s.pipes type).closed := by
  cases step_cases hstep with
  | write type' bytes _ => exact setPipe_closed _ rfl
  | close type' _ =>
    have hne : type ≠ type' := fun heq => hevent (by rw [heq])
    rw [setPipe_other _ hne]
  | polled ready takes _ => rfl
  | quiet ready takes _ => rfl
  | endOut polled _ => exact setPipe_closed _ (checkEnd_closed polled _)
  | endErr polled _ => exact setPipe_closed _ (checkEnd_closed polled _)
  | runs exited _ => rfl
  | exits exited _ _ => rfl

/-- The invariant: every byte is read or waits, and a process is cleaned up only when its child has
closed its ends. -/
structure Sound (s : State) : Prop where
  kept : ∀ type, (s.pipes type).Kept
  cleaned : s.phase = .cleaned → ∀ type, (s.pipes type).closed = true

theorem setPipe_kept (h : ∀ type, (s.pipes type).Kept) (p : Pipe) (hp : p.Kept) (type' : PipeType) :
    ((s.setPipe type p).pipes type').Kept := by
  by_cases heq : type' = type
  · rw [heq, setPipe_self]
    exact hp
  · rw [setPipe_other p heq]
    exact h type'

theorem step_sound (h : Sound s) (hstep : s.step event = some s') : Sound s' := by
  cases step_cases hstep with
  | write type' bytes hopen =>
    refine ⟨setPipe_kept h.kept _ ?_, ?_⟩
    · have hkept := h.kept type'
      unfold Pipe.Kept Pipe.delivered at hkept ⊢
      dsimp only
      rw [← List.append_assoc, hkept]
    · intro hcleaned
      exact absurd (h.cleaned hcleaned type') hopen
  | close type' hopen =>
    refine ⟨setPipe_kept h.kept _ (h.kept type'), ?_⟩
    intro hcleaned
    exact absurd (h.cleaned hcleaned type') hopen
  | polled ready takes _ => exact ⟨h.kept, fun hcleaned => by cases hcleaned⟩
  | quiet ready takes _ => exact ⟨h.kept, fun hcleaned => by cases hcleaned⟩
  | endOut polled _ =>
    exact ⟨setPipe_kept h.kept _ (checkEnd_kept polled _ (h.kept .out)),
      fun hcleaned => by cases hcleaned⟩
  | endErr polled _ =>
    exact ⟨setPipe_kept h.kept _ (checkEnd_kept polled _ (h.kept .err)),
      fun hcleaned => by cases hcleaned⟩
  | runs exited _ => exact ⟨h.kept, fun hcleaned => by cases hcleaned⟩
  | exits exited _ hclosed => exact ⟨h.kept, fun _ => hclosed⟩

end Steps

section Runs

variable {type : PipeType}

theorem run_cons {s s' : State} {event : Event} {events : List Event}
    (hrun : s.run (event :: events) = some s') :
    ∃ s₁, s.step event = some s₁ ∧ s₁.run events = some s' := by
  unfold State.run at hrun
  cases hstep : s.step event with
  | none =>
    rw [hstep] at hrun
    cases hrun
  | some s₁ =>
    rw [hstep] at hrun
    exact ⟨s₁, rfl, hrun⟩

theorem run_sound (events : List Event) {s s' : State} (h : Sound s)
    (hrun : s.run events = some s') : Sound s' := by
  induction events generalizing s with
  | nil =>
    rw [← Option.some.inj hrun]
    exact h
  | cons event events ih =>
    obtain ⟨s₁, hstep, hrest⟩ := run_cons hrun
    exact ih (step_sound h hstep) hrest

theorem run_closed (events : List Event) {s s' : State} (hclosed : (s.pipes type).closed = true)
    (hrun : s.run events = some s') :
    (Drained s' type ↔ Drained s type) ∧ ClosesDrained type s events := by
  induction events generalizing s with
  | nil =>
    rw [← Option.some.inj hrun]
    exact ⟨Iff.rfl, trivial⟩
  | cons event events ih =>
    obtain ⟨s₁, hstep, hrest⟩ := run_cons hrun
    obtain ⟨hclosed₁, hiff⟩ := step_closed hclosed hstep
    obtain ⟨hiff', hcloses⟩ := ih hclosed₁ hrest
    refine ⟨hiff'.trans hiff, ?_, ?_⟩
    · intro _ hopen
      rw [hclosed] at hopen
      cases hopen
    · intro s₂ hstep'
      rw [← Option.some.inj (hstep.symm.trans hstep')]
      exact hcloses

/-- A pipe that is open at first and closed at the end was closed when it was drained, or is not
drained. -/
theorem run_open (events : List Event) {s s' : State} (hopen : (s.pipes type).closed = false)
    (hrun : s.run events = some s') (hclosed : (s'.pipes type).closed = true) :
    Drained s' type ↔ ClosesDrained type s events := by
  induction events generalizing s with
  | nil =>
    rw [← Option.some.inj hrun, hopen] at hclosed
    cases hclosed
  | cons event events ih =>
    obtain ⟨s₁, hstep, hrest⟩ := run_cons hrun
    have htail : (∀ s₂, s.step event = some s₂ → ClosesDrained type s₂ events) ↔
        ClosesDrained type s₁ events := by
      constructor
      · intro h
        exact h s₁ hstep
      · intro h s₂ hstep'
        rw [← Option.some.inj (hstep.symm.trans hstep')]
        exact h
    change _ ↔ (event = .close type → _ → _) ∧ _
    rw [htail]
    by_cases hevent : event = .close type
    · have hclose : s₁ = s.setPipe type { s.pipes type with closed := true } := by
        rw [hevent] at hstep
        have hne : ¬ (s.pipes type).closed = true := by
          rw [hopen]
          decide
        exact (Option.some.inj ((if_neg hne).symm.trans hstep)).symm
      have hself : s₁.pipes type = { s.pipes type with closed := true } := by
        rw [hclose]
        exact setPipe_self _
      have hsame : Drained s₁ type ↔ Drained s type := by
        apply drained_congr
        · rw [hself]
        · rw [hclose]
          rfl
      obtain ⟨hiff, hcloses⟩ := run_closed events (congrArg Pipe.closed hself) hrest
      rw [hiff, hsame]
      constructor
      · intro h
        exact ⟨fun _ _ => h, hcloses⟩
      · intro h
        exact h.1 hevent hopen
    · have hopen₁ : (s₁.pipes type).closed = false := (step_open hevent hstep).trans hopen
      rw [ih hopen₁ hrest]
      constructor
      · intro h
        exact ⟨fun heq => absurd heq hevent, h⟩
      · intro h
        exact h.2

theorem sound_start : Sound State.start := ⟨fun _ => rfl, fun hcleaned => by cases hcleaned⟩

/-- When a process is cleaned up, a callback has got everything that the child wrote to its pipe if
and only if the pipe was drained when the child closed it. -/
theorem delivered_iff_closesDrained (type : PipeType) (events : List Event) (s : State)
    (hrun : State.start.run events = some s) (hcleaned : s.phase = .cleaned) :
    (s.pipes type).delivered = (s.pipes type).written ↔ ClosesDrained type .start events := by
  have hsound := run_sound events sound_start hrun
  have hclosed := hsound.cleaned hcleaned type
  rw [← run_open events rfl hrun hclosed]
  have hkept := hsound.kept type
  unfold Pipe.Kept at hkept
  have hnone : s.phase.reads type = none := by rw [hcleaned]; rfl
  constructor
  · intro h
    rw [h] at hkept
    exact Or.inl (List.append_right_eq_self.mp hkept)
  · intro h
    rcases h with hnil | ⟨take, htake, _⟩
    · rwa [hnil, List.append_nil] at hkept
    · rw [hnone] at htake
      cases htake

end Runs

section Short

/-- A child that writes a byte, which is read before it exits. -/
def slowChild : List Event :=
  [.write .out [65], .poll false fun _ => 1, .endPipe, .endPipe, .waitpid false, .close .out,
    .close .err, .poll false fun _ => 1, .endPipe, .endPipe, .waitpid true]

/-- A child that writes a byte and exits between two passes. -/
def shortChild : List Event :=
  [.write .out [65], .close .out, .close .err, .poll false fun _ => 1, .endPipe, .endPipe,
    .waitpid true]

/-- Where a run ends that can be made. -/
def endOf (events : List Event) (h : (State.start.run events).isSome) : State :=
  (State.start.run events).get h

theorem run_endOf (events : List Event) (h : (State.start.run events).isSome) :
    State.start.run events = some (endOf events h) := (Option.some_get h).symm

theorem delivered_iff_closesDrained_slow :
    ((endOf slowChild (by decide)).pipes .out).delivered =
        ((endOf slowChild (by decide)).pipes .out).written ↔
      ClosesDrained .out .start slowChild :=
  delivered_iff_closesDrained .out slowChild _ (run_endOf slowChild (by decide)) rfl

/-- The byte of the short child is never read. -/
theorem not_all_delivered :
    ¬ ∀ (type : PipeType) (events : List Event) (s : State), State.start.run events = some s →
      s.phase = .cleaned → (s.pipes type).delivered = (s.pipes type).written := by
  intro h
  have hall := h .out shortChild _ (run_endOf shortChild (by decide)) rfl
  exact absurd hall (by decide)

end Short

end LibAtrinik.ChildOutput

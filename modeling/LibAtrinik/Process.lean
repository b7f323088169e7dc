import Mathlib.Data.List.Basic
import Mathlib.Algebra.Order.Group.Int
import Mathlib.Tactic.Ring

/-! A child process and the packets that are sent to its standard input. A packet is written right
away as far as the pipe takes it; what is left waits in a queue, which the checking functions
drain. -/
namespace LibAtrinik.ChildProcess

/-- The part of a packet that the process functions look at. `pos` is where the next write
starts; it is zero in a packet that has just been made. -/
structure OutPacket where
  data : List UInt8
  pos : ℕ := 0
deriving DecidableEq, Repr

/-- `struct process`, and what the pipe to the running child has accepted so far. -/
structure Process where
  packets : List OutPacket := []
  restart : Bool := false
  running : Bool := false
  stdin : List UInt8 := []
deriving DecidableEq, Repr

/-- `write`: the system's answer to an offer of `count` bytes. It takes no more than it is
offered, and an answer that is not positive stands for a full pipe or an error. -/
def writeResult (count : ℕ) (answer : ℤ) : ℤ := min answer count

/-- The pipe takes the bytes that `write` reports. -/
def Process.accept (process : Process) (bytes : List UInt8) (ret : ℤ) : Process :=
  { process with stdin := process.stdin ++ bytes.take ret.toNat }

def processCreate (restart : Bool) : Process := { restart := restart }

/-- Sends a packet; nothing happens unless the process is running. -/
def processSend (process : Process) (packet : OutPacket) (answer : ℤ) : Process :=
  if process.running = false then process
  else
    let ret := writeResult packet.data.length answer
    let process := process.accept packet.data ret
    -- Nothing was taken, which is also so when nothing was offered.
    if ret ≤ 0 then { process with packets := process.packets ++ [packet] }
    else if ret.toNat = packet.data.length then process
    else { process with packets := process.packets ++ [{ packet with pos := ret.toNat }] }

/-- The new child gets a new pipe. `started` is whether the system could start it. -/
def processStart (process : Process) (started : Bool) : Bool × Process :=
  if process.running = true then (false, process)
  else if started then (true, { process with running := true, stdin := [] })
  else (false, process)

def processCleanup (process : Process) (started : Bool) : Process :=
  if process.running = false then process
  else
    let process := { process with running := false }
    if process.restart then (processStart process started).2 else process

/-- The loop of `process_check_internal_pipe` for the input pipe; the answers are those of the
writes in turn. -/
def drainLoop (answers : ℕ → ℤ) : List OutPacket → List UInt8 → List OutPacket × List UInt8
  | [], stdin => ([], stdin)
  | packet :: packets, stdin =>
    let offered := packet.data.drop packet.pos
    let ret := writeResult offered.length (answers 0)
    if ret ≤ 0 then (packet :: packets, stdin)
    else
      let stdin := stdin ++ offered.take ret.toNat
      let packet := { packet with pos := packet.pos+ret.toNat }
      if packet.pos = packet.data.length then drainLoop (fun i => answers (i+1)) packets stdin
      else (packet :: packets, stdin)

def processCheckPipeIn (process : Process) (answers : ℕ → ℤ) : Process :=
  let drained := drainLoop answers process.packets process.stdin
  { process with packets := drained.1, stdin := drained.2 }

def processCheckExit (process : Process) (exited started : Bool) : Process :=
  if process.running = false then process
  else if exited then processCleanup process started
  else process

/-- What happens during one pass of `process_check`: the answers of the system, and the packets
that the callbacks send in reply to what the child has written. -/
structure Pass where
  polled : Bool
  pipeError : Bool
  answers : ℕ → ℤ
  replies : List (List UInt8 × ℤ)
  exited : Bool
  started : Bool

def processReplies (process : Process) (replies : List (List UInt8 × ℤ)) : Process :=
  replies.foldl (fun process reply => processSend process { data := reply.1 } reply.2) process

/-- `process_check`, as far as it is about the input pipe, which is served first. -/
def processCheck (process : Process) (pass : Pass) : Process :=
  if process.running = false then process
  else
    let process :=
      if pass.polled then
        let process :=
          if pass.pipeError then process else processCheckPipeIn process pass.answers
        processReplies process pass.replies
      else process
    processCheckExit process pass.exited pass.started

/-- What is done to a process from outside. -/
inductive Event where
  | send (data : List UInt8) (answer : ℤ)
  | check (pass : Pass)

def Process.event (process : Process) : Event → Process
  | .send data answer => processSend process { data := data } answer
  | .check pass => processCheck process pass

/-- The child has not exited when it is checked. -/
def Event.KeepsChild : Event → Prop
  | .send _ _ => True
  | .check pass => pass.exited = false

/-- What happens to the queue. -/
inductive Step where
  | send (data : List UInt8) (answer : ℤ)
  | drain (answers : ℕ → ℤ)

def Process.step (process : Process) : Step → Process
  | .send data answer => processSend process { data := data } answer
  | .drain answers => processCheckPipeIn process answers

def Event.steps : Event → List Step
  | .send data answer => [.send data answer]
  | .check pass =>
    if pass.polled then
      (if pass.pipeError then [] else [.drain pass.answers]) ++
        pass.replies.map fun reply => .send reply.1 reply.2
    else []

/-- The data of the packets, in the order in which they are sent. -/
def sentBytes (steps : List Step) : List UInt8 :=
  steps.flatMap fun
    | .send data _ => data
    | .drain _ => []

/-- What is in the queue and has not been written yet. -/
def Process.pending (process : Process) : List UInt8 :=
  process.packets.flatMap fun packet => packet.data.drop packet.pos

/-- Nothing is written past bytes that still wait: the queue has been written out when a packet is
sent, or the pipe takes nothing of the packet. -/
def Step.InOrder (process : Process) : Step → Prop
  | .send data answer => process.pending = [] ∨ writeResult data.length answer ≤ 0
  | .drain _ => True

def InOrder : Process → List Step → Prop
  | _, [] => True
  | process, step :: steps => step.InOrder process ∧ InOrder (process.step step) steps

/-- `write` takes at most what it is offered. -/
theorem writeResult_le (count : ℕ) (answer : ℤ) : (writeResult count answer).toNat ≤ count := by
  unfold writeResult
  omega

theorem pending_append (process : Process) (packet : OutPacket) :
    Process.pending { process with packets := process.packets ++ [packet] } =
      process.pending ++ packet.data.drop packet.pos := by
  simp only [Process.pending, List.flatMap_append, List.flatMap_singleton]

/-- What a send does to the bytes: those that the pipe takes go in front of the queue. -/
theorem processSend_bytes (process : Process) (hrun : process.running = true) (data : List UInt8)
    (answer : ℤ) :
    ∃ k, k = (writeResult data.length answer).toNat ∧
      (processSend process { data := data } answer).running = true ∧
      (processSend process { data := data } answer).stdin = process.stdin ++ data.take k ∧
      (processSend process { data := data } answer).pending =
        process.pending ++ data.drop k := by
  refine ⟨_, rfl, ?_⟩
  unfold processSend
  rw [if_neg (by rw [hrun]; decide)]
  dsimp only
  by_cases hnone : writeResult data.length answer ≤ 0
  · -- the whole packet waits
    have hzero : (writeResult data.length answer).toNat = 0 := Int.toNat_of_nonpos hnone
    rw [if_pos hnone, pending_append, hzero]
    refine ⟨hrun, ?_, rfl⟩
    rw [Process.accept, hzero]
  rw [if_neg hnone]
  by_cases hall : (writeResult data.length answer).toNat = data.length
  · rw [if_pos hall, hall, List.drop_length, List.append_nil]
    refine ⟨hrun, ?_, rfl⟩
    rw [Process.accept, hall]
  · rw [if_neg hall, pending_append]
    exact ⟨hrun, rfl, rfl⟩

/-- Draining moves bytes from the front of the queue into the pipe. -/
theorem drainLoop_bytes (packets : List OutPacket) (answers : ℕ → ℤ) (stdin : List UInt8) :
    (drainLoop answers packets stdin).2 ++
        (drainLoop answers packets stdin).1.flatMap (fun packet => packet.data.drop packet.pos) =
      stdin ++ packets.flatMap fun packet => packet.data.drop packet.pos := by
  induction packets generalizing answers stdin with
  | nil => rfl
  | cons packet packets ih =>
    rw [drainLoop]
    dsimp only
    generalize hret : writeResult (packet.data.drop packet.pos).length (answers 0) = ret
    by_cases hnone : ret ≤ 0
    · rw [if_pos hnone]
    rw [if_neg hnone]
    -- the packet is split where the pipe stopped
    have hsplit : (packet.data.drop packet.pos).take ret.toNat ++
        packet.data.drop (packet.pos+ret.toNat) = packet.data.drop packet.pos := by
      rw [← List.drop_drop]
      exact List.take_append_drop _ _
    by_cases hend : packet.pos+ret.toNat = packet.data.length
    · rw [hend, List.drop_length, List.append_nil] at hsplit
      rw [if_pos hend, ih, List.flatMap_cons, hsplit, List.append_assoc]
    · rw [if_neg hend]
      dsimp only
      rw [List.flatMap_cons, List.flatMap_cons]
      calc (stdin ++ (packet.data.drop packet.pos).take ret.toNat) ++
            (packet.data.drop (packet.pos+ret.toNat) ++
              packets.flatMap fun packet => packet.data.drop packet.pos)
          = stdin ++ (((packet.data.drop packet.pos).take ret.toNat ++
              packet.data.drop (packet.pos+ret.toNat)) ++
              packets.flatMap fun packet => packet.data.drop packet.pos) := by
            simp only [List.append_assoc]
        _ = _ := by rw [hsplit]

/-- One step in order: what the pipe has accepted and what waits are together what was sent. -/
theorem step_bytes (process : Process) (hrun : process.running = true) (step : Step)
    (h : step.InOrder process) :
    (process.step step).running = true ∧
      (process.step step).stdin ++ (process.step step).pending =
        process.stdin ++ process.pending ++ sentBytes [step] := by
  cases step with
  | send data answer =>
    obtain ⟨k, hk, hrun', hstdin, hpending⟩ := processSend_bytes process hrun data answer
    refine ⟨hrun', ?_⟩
    have hsent : sentBytes [.send data answer] = data := List.append_nil data
    change (processSend process { data := data } answer).stdin ++
      (processSend process { data := data } answer).pending = _
    rw [hstdin, hpending, hsent]
    rcases h with hempty | hnone
    · rw [hempty, List.nil_append, List.append_nil, List.append_assoc, List.take_append_drop]
    · rw [hk, Int.toNat_of_nonpos hnone, List.take_zero, List.drop_zero, List.append_nil,
        List.append_assoc]
  | drain answers =>
    refine ⟨hrun, ?_⟩
    have hsent : sentBytes [.drain answers] = [] := rfl
    rw [hsent, List.append_nil]
    exact drainLoop_bytes process.packets answers process.stdin

theorem run_bytes (steps : List Step) (process : Process) (hrun : process.running = true)
    (h : InOrder process steps) :
    (steps.foldl Process.step process).running = true ∧
      (steps.foldl Process.step process).stdin ++ (steps.foldl Process.step process).pending =
        process.stdin ++ process.pending ++ sentBytes steps := by
  induction steps generalizing process with
  | nil => exact ⟨hrun, (List.append_nil _).symm⟩
  | cons step steps ih =>
    obtain ⟨hrun', hbytes⟩ := step_bytes process hrun step h.1
    obtain ⟨hrun'', hbytes'⟩ := ih (process.step step) hrun' h.2
    have hsent : sentBytes (step :: steps) = sentBytes [step] ++ sentBytes steps := by
      simp only [sentBytes, List.flatMap_cons, List.flatMap_nil, List.append_nil]
    refine ⟨hrun'', ?_⟩
    rw [List.foldl_cons, hbytes', hbytes, hsent, List.append_assoc]

theorem processSend_running (process : Process) (hrun : process.running = true)
    (data : List UInt8) (answer : ℤ) :
    (processSend process { data := data } answer).running = true := by
  obtain ⟨_, _, hrun', _⟩ := processSend_bytes process hrun data answer
  exact hrun'

theorem steps_running (steps : List Step) (process : Process) (hrun : process.running = true) :
    (steps.foldl Process.step process).running = true := by
  induction steps generalizing process with
  | nil => exact hrun
  | cons step steps ih =>
    apply ih
    cases step with
    | send data answer => exact processSend_running process hrun data answer
    | drain answers => exact hrun

/-- An event that keeps the child is its steps, one after the other. -/
theorem event_eq_steps (process : Process) (hrun : process.running = true) (event : Event)
    (h : event.KeepsChild) : process.event event = event.steps.foldl Process.step process := by
  cases event with
  | send data answer => rfl
  | check pass =>
    have hreplies (start : Process) : processReplies start pass.replies =
        (pass.replies.map fun reply => Step.send reply.1 reply.2).foldl Process.step start := by
      rw [List.foldl_map]
      rfl
    have hnone : ¬process.running = false := by
      rw [hrun]
      decide
    have hexit (last : Process) : processCheckExit last pass.exited pass.started = last := by
      have hexited : pass.exited = false := h
      unfold processCheckExit
      rw [hexited]
      simp only [Bool.false_eq_true, if_false, ite_self]
    change processCheck process pass = _
    unfold processCheck Event.steps
    rw [if_neg hnone]
    dsimp only
    rw [hexit, hreplies]
    cases pass.polled <;> cases pass.pipeError <;> rfl

theorem events_eq_steps (events : List Event) (process : Process) (hrun : process.running = true)
    (h : ∀ event ∈ events, event.KeepsChild) :
    events.foldl Process.event process =
      (events.flatMap Event.steps).foldl Process.step process := by
  induction events generalizing process with
  | nil => rfl
  | cons event events ih =>
    have hevent := event_eq_steps process hrun event (h event List.mem_cons_self)
    rw [List.foldl_cons, List.flatMap_cons, List.foldl_append, hevent]
    apply ih
    · exact steps_running _ process hrun
    · intro event' hmem
      exact h event' (List.mem_cons_of_mem _ hmem)

/-- A process that has just been started. -/
def startedProcess (restart : Bool) : Process := (processStart (processCreate restart) true).2

/-- As long as no packet is written past bytes that wait, the pipe gets the packets in the order
in which they were sent, byte for byte. -/
theorem accepted_prefix_of_inOrder (restart : Bool) (events : List Event)
    (hchild : ∀ event ∈ events, event.KeepsChild)
    (horder : InOrder (startedProcess restart) (events.flatMap Event.steps)) :
    (events.foldl Process.event (startedProcess restart)).stdin <+:
      sentBytes (events.flatMap Event.steps) := by
  have hrun : (startedProcess restart).running = true := rfl
  rw [events_eq_steps events _ hrun hchild]
  have hbytes := (run_bytes (events.flatMap Event.steps) _ hrun horder).2
  have hempty : (startedProcess restart).stdin ++ (startedProcess restart).pending = [] := rfl
  rw [hempty, List.nil_append] at hbytes
  exact ⟨_, hbytes⟩

/-- A packet that is taken in two parts, a full pipe for the next one, and a pass that writes both
out. -/
theorem accepted_prefix_of_inOrder_halves :
    ([.send [1, 2] 1, .send [3] 0, .check ⟨true, false, fun _ => 5, [([4], 9)], false, false⟩].foldl
      Process.event (startedProcess false)).stdin <+:
      sentBytes ([.send [1, 2] 1, .send [3] 0,
        .check ⟨true, false, fun _ => 5, [([4], 9)], false, false⟩].flatMap Event.steps) := by
  apply accepted_prefix_of_inOrder
  · simp [Event.KeepsChild]
  · refine ⟨Or.inl rfl, Or.inr (by decide), trivial, Or.inl ?_, trivial⟩
    decide

/-- The pipe takes one byte of two, is emptied by the child, and takes the next packet at once:
its byte comes before the second one of the first packet. -/
theorem not_accepted_prefix :
    ¬∀ (restart : Bool) (events : List Event), (∀ event ∈ events, event.KeepsChild) →
      (events.foldl Process.event (startedProcess restart)).stdin <+:
        sentBytes (events.flatMap Event.steps) := by
  intro h
  have hprefix := h false [.send [1, 2] 1, .send [3] 1] (by simp [Event.KeepsChild])
  revert hprefix
  decide

end LibAtrinik.ChildProcess

import LibAtrinik.ProcessRestart
import Mathlib.Data.List.TakeWhile

namespace LibAtrinik.ChildProcess

section Pass

/-- The pipe takes every byte that it is offered. The packets are written in turn, so the answer at
a place is the one to the packet at that place. -/
def TakesAll (answers : ℕ → ℤ) (packets : List OutPacket) : Prop :=
  ∀ i packet, packets[i]? = some packet →
    ((packet.data.drop packet.pos).length : ℤ) ≤ answers i

/-- Some of the packet has not been written yet. -/
def OutPacket.waits (packet : OutPacket) : Bool := packet.pos < packet.data.length

theorem writeResult_takes (count : ℕ) (answer : ℤ) (h : (count : ℤ) ≤ answer) :
    writeResult count answer = count := min_eq_right h

/-- The pass stops at the first packet of which nothing is left. -/
theorem drainLoop_takesAll (answers : ℕ → ℤ) (packets : List OutPacket) (stdin : List UInt8)
    (h : TakesAll answers packets) :
    (drainLoop answers packets stdin).1 = packets.dropWhile OutPacket.waits := by
  induction packets generalizing answers stdin with
  | nil => rfl
  | cons packet packets ih =>
    have hret := writeResult_takes _ _ (h 0 packet rfl)
    have hlength : (packet.data.drop packet.pos).length = packet.data.length-packet.pos :=
      List.length_drop
    have hrest : TakesAll (fun i => answers (i+1)) packets :=
      fun i packet' hget => h (i+1) packet' hget
    rw [drainLoop]
    dsimp only
    rw [hret, hlength, Int.toNat_natCast, List.dropWhile_cons]
    by_cases hwaits : packet.pos < packet.data.length
    · have hwaits' : packet.waits = true := decide_eq_true hwaits
      rw [if_pos hwaits', if_neg (by omega), if_pos (by omega)]
      exact ih _ _ hrest
    · -- `write` is offered nothing
      have hwaits' : ¬ packet.waits = true := by simpa [OutPacket.waits] using hwaits
      rw [if_neg hwaits', if_pos (by omega)]

theorem drained_iff_waits (process : Process) (answers : ℕ → ℤ)
    (h : TakesAll answers process.packets) :
    (processCheckPipeIn process answers).packets = [] ↔
      ∀ packet ∈ process.packets, packet.pos < packet.data.length := by
  change (drainLoop answers process.packets process.stdin).1 = [] ↔ _
  rw [drainLoop_takesAll answers process.packets process.stdin h, List.dropWhile_eq_nil_iff]
  simp only [OutPacket.waits, decide_eq_true_eq]

end Pass

section Queue

/-- What is known of a packet in the queue: it has been sent, and a part of it waits unless it has
no data at all. -/
structure Queued (sent : List (List UInt8)) (packet : OutPacket) : Prop where
  sent : packet.data ∈ sent
  waits : packet.data ≠ [] → packet.pos < packet.data.length

variable {sent : List (List UInt8)}

/-- A packet that is written in part stays queued with the rest of its data. -/
theorem Queued.advance {packet : OutPacket} (h : Queued sent packet) (k : ℕ)
    (hle : k ≤ (packet.data.drop packet.pos).length)
    (hend : packet.pos+k ≠ packet.data.length) :
    Queued sent { packet with pos := packet.pos+k } := by
  refine ⟨h.sent, ?_⟩
  intro hdata
  have hwaits := h.waits hdata
  rw [List.length_drop] at hle
  change packet.pos+k < packet.data.length
  omega

theorem drainLoop_queued (answers : ℕ → ℤ) (packets : List OutPacket) (stdin : List UInt8)
    (h : ∀ packet ∈ packets, Queued sent packet) :
    ∀ packet ∈ (drainLoop answers packets stdin).1, Queued sent packet := by
  induction packets generalizing answers stdin with
  | nil => exact h
  | cons packet packets ih =>
    have hpacket := h packet List.mem_cons_self
    have hrest : ∀ packet ∈ packets, Queued sent packet :=
      fun packet' hmem => h packet' (List.mem_cons_of_mem _ hmem)
    rw [drainLoop]
    dsimp only
    have hle := writeResult_le (packet.data.drop packet.pos).length (answers 0)
    generalize writeResult (packet.data.drop packet.pos).length (answers 0) = ret at hle ⊢
    by_cases hnone : ret ≤ 0
    · rw [if_pos hnone]
      exact h
    rw [if_neg hnone]
    by_cases hend : packet.pos+ret.toNat = packet.data.length
    · rw [if_pos hend]
      exact ih _ _ hrest
    · rw [if_neg hend]
      intro packet' hmem
      rcases List.mem_cons.mp hmem with heq | hmem
      · rw [heq]
        exact hpacket.advance ret.toNat hle hend
      · exact hrest packet' hmem

/-- What a send does to the queue. A packet that is queued has not been written out, unless there
was nothing to write. -/
theorem processSend_packets (process : Process) (data : List UInt8) (answer : ℤ) :
    (processSend process { data := data } answer).packets = process.packets ∨
      ∃ k, (data ≠ [] → k < data.length) ∧
        (processSend process { data := data } answer).packets = process.packets ++ [⟨data, k⟩] := by
  unfold processSend
  by_cases hstop : process.running = false
  · rw [if_pos hstop]
    exact Or.inl rfl
  rw [if_neg hstop]
  dsimp only [Process.accept]
  have hle := writeResult_le data.length answer
  generalize writeResult data.length answer = ret at hle ⊢
  by_cases hnone : ret ≤ 0
  · rw [if_pos hnone]
    exact Or.inr ⟨0, List.length_pos_iff.mpr, rfl⟩
  rw [if_neg hnone]
  by_cases hall : ret.toNat = data.length
  · rw [if_pos hall]
    exact Or.inl rfl
  · rw [if_neg hall]
    exact Or.inr ⟨ret.toNat, fun _ => lt_of_le_of_ne hle hall, rfl⟩

theorem processStart_packets (process : Process) (started : Bool) :
    (processStart process started).2.packets = process.packets := by
  unfold processStart
  by_cases hrun : process.running = true
  · rw [if_pos hrun]
  · rw [if_neg hrun]
    cases started <;> rfl

/-- The queue outlives the child. -/
theorem processCleanup_packets (process : Process) (started : Bool) :
    (processCleanup process started).packets = process.packets := by
  unfold processCleanup
  by_cases hstop : process.running = false
  · rw [if_pos hstop]
  rw [if_neg hstop]
  dsimp only
  by_cases hrestart : process.restart = true
  · rw [if_pos hrestart]
    exact processStart_packets _ started
  · rw [if_neg hrestart]

/-- What a turn does to the queue: nothing, or a packet that is sent joins it, or it is drained. -/
theorem turn_packets (process : Process) (turn : Turn) :
    (process.turn turn).packets = process.packets ∨
      (∃ data k, data ∈ sentPackets [turn] ∧ (data ≠ [] → k < data.length) ∧
        (process.turn turn).packets = process.packets ++ [⟨data, k⟩]) ∨
      ∃ answers, (process.turn turn).packets =
        (drainLoop answers process.packets process.stdin).1 := by
  cases turn with
  | step step =>
    cases step with
    | send data answer =>
      rcases processSend_packets process data answer with hsame | ⟨k, hk, hjoins⟩
      · exact Or.inl hsame
      · exact Or.inr (Or.inl ⟨data, k, List.mem_cons_self, hk, hjoins⟩)
    | drain answers =>
      by_cases hstop : process.running = false
      · exact Or.inl (congrArg Process.packets (if_pos hstop))
      · exact Or.inr (Or.inr ⟨answers, congrArg Process.packets (if_neg hstop)⟩)
  | cleanup started => exact Or.inl (processCleanup_packets process started)
  | start started => exact Or.inl (processStart_packets process started)

theorem turn_queued (process : Process) (turn : Turn)
    (h : ∀ packet ∈ process.packets, Queued sent packet) :
    ∀ packet ∈ (process.turn turn).packets, Queued (sent ++ sentPackets [turn]) packet := by
  have hkeep : ∀ packet ∈ process.packets, Queued (sent ++ sentPackets [turn]) packet :=
    fun packet hmem => ⟨List.mem_append_left _ (h packet hmem).sent, (h packet hmem).waits⟩
  rcases turn_packets process turn with hsame | ⟨data, k, hdata, hk, hjoins⟩ | ⟨answers, hdrain⟩
  · rw [hsame]
    exact hkeep
  · rw [hjoins]
    intro packet hmem
    rcases List.mem_append.mp hmem with hold | hnew
    · exact hkeep packet hold
    · rw [List.mem_singleton.mp hnew]
      exact ⟨List.mem_append_right _ hdata, hk⟩
  · rw [hdrain]
    exact drainLoop_queued answers process.packets process.stdin hkeep

theorem turns_queued (turns : List Turn) (process : Process)
    (h : ∀ packet ∈ process.packets, Queued sent packet) :
    ∀ packet ∈ (turns.foldl Process.turn process).packets,
      Queued (sent ++ sentPackets turns) packet := by
  induction turns generalizing process sent with
  | nil =>
    rw [show sentPackets [] = [] from rfl, List.append_nil]
    exact h
  | cons turn turns ih =>
    have hrest := ih (process.turn turn) (turn_queued process turn h)
    have hsent : sentPackets (turn :: turns) = sentPackets [turn] ++ sentPackets turns := by
      simp only [sentPackets, List.flatMap_cons, List.flatMap_nil, List.append_nil]
    rw [hsent, ← List.append_assoc]
    exact hrest

/-- What is in the queue after any calls has been sent, and waits unless it is empty. -/
theorem calls_queued (restart : Bool) (calls : List Call) :
    ∀ packet ∈ (calls.foldl Process.call (processCreate restart)).packets,
      Queued (sentPackets (calls.flatMap Call.turns)) packet := by
  rw [calls_eq_turns]
  change ∀ packet ∈ _, Queued ([] ++ sentPackets (calls.flatMap Call.turns)) packet
  apply turns_queued
  intro packet hmem
  cases hmem

end Queue

section Drain

/-- Whatever has been called for a process: a pass over a pipe that takes everything leaves its
queue empty exactly if no packet without data is in the queue. -/
theorem drained_iff_no_empty (restart : Bool) (calls : List Call) (answers : ℕ → ℤ)
    (h : TakesAll answers (calls.foldl Process.call (processCreate restart)).packets) :
    (processCheckPipeIn (calls.foldl Process.call (processCreate restart)) answers).packets = [] ↔
      ∀ packet ∈ (calls.foldl Process.call (processCreate restart)).packets,
        packet.data ≠ [] := by
  rw [drained_iff_waits _ _ h]
  constructor
  · intro hwaits packet hmem hempty
    have hlt := hwaits packet hmem
    rw [hempty] at hlt
    exact Nat.not_lt_zero _ hlt
  · intro hdata packet hmem
    exact (calls_queued restart calls packet hmem).waits (hdata packet hmem)

/-- A packet that is taken in part and one that finds the pipe full, written out by one pass. -/
theorem drained_iff_no_empty_two :
    (processCheckPipeIn ([.start true, .event (.send [1, 2] 1), .event (.send [3] 0)].foldl
      Process.call (processCreate false)) fun _ => 9).packets = [] ↔
      ∀ packet ∈ ([.start true, .event (.send [1, 2] 1), .event (.send [3] 0)].foldl
        Process.call (processCreate false)).packets, packet.data ≠ [] := by
  apply drained_iff_no_empty
  intro i packet hget
  have hmem := List.mem_of_getElem? hget
  have hqueue : ([.start true, .event (.send [1, 2] 1), .event (.send [3] 0)].foldl
      Process.call (processCreate false)).packets = [⟨[1, 2], 1⟩, ⟨[3], 0⟩] := by decide
  rw [hqueue] at hmem
  have htakes : ∀ packet ∈ ([⟨[1, 2], 1⟩, ⟨[3], 0⟩] : List OutPacket),
      ((packet.data.drop packet.pos).length : ℤ) ≤ 9 := by decide
  exact htakes packet hmem

/-- A packet without data waits for ever, although the pipe takes everything. -/
theorem not_always_drained :
    ¬∀ (restart : Bool) (calls : List Call) (answers : ℕ → ℤ),
      TakesAll answers (calls.foldl Process.call (processCreate restart)).packets →
        (processCheckPipeIn (calls.foldl Process.call (processCreate restart))
          answers).packets = [] := by
  intro h
  have hdrained := h false [.start true, .event (.send [] 9)] (fun _ => 9) (by
    intro i packet hget
    have hmem := List.mem_of_getElem? hget
    have hqueue : ([.start true, .event (.send [] 9)].foldl Process.call
        (processCreate false)).packets = [⟨[], 0⟩] := by decide
    rw [hqueue] at hmem
    rw [List.mem_singleton.mp hmem]
    exact Int.natCast_nonneg 9)
  revert hdrained
  decide

/-- Where every packet that is sent has data, the queue drains after any calls. -/
theorem drained_of_sent (restart : Bool) (calls : List Call) (answers : ℕ → ℤ)
    (hsent : ∀ data ∈ sentPackets (calls.flatMap Call.turns), data ≠ [])
    (h : TakesAll answers (calls.foldl Process.call (processCreate restart)).packets) :
    (processCheckPipeIn (calls.foldl Process.call (processCreate restart))
      answers).packets = [] := by
  rw [drained_iff_waits _ _ h]
  intro packet hmem
  have hqueued := calls_queued restart calls packet hmem
  exact hqueued.waits (hsent _ hqueued.sent)

/-- The queue behind a packet without data only grows. -/
structure Stuck (packets : List OutPacket) (packet : OutPacket) (rest : List OutPacket) : Prop where
  empty : packet.data = []
  queue : ∃ later, packets = packet :: rest ++ later

/-- Whatever `write` answers, it takes none of no bytes. -/
theorem drainLoop_stuck (answers : ℕ → ℤ) (packet : OutPacket) (packets : List OutPacket)
    (stdin : List UInt8) (hempty : packet.data = []) :
    (drainLoop answers (packet :: packets) stdin).1 = packet :: packets := by
  have hnone : writeResult (packet.data.drop packet.pos).length (answers 0) ≤ 0 := by
    rw [hempty, List.drop_nil]
    exact min_le_right _ _
  rw [drainLoop]
  dsimp only
  rw [if_pos hnone]

theorem turn_stuck (process : Process) (turn : Turn) {packet : OutPacket} {rest : List OutPacket}
    (h : Stuck process.packets packet rest) : Stuck (process.turn turn).packets packet rest := by
  obtain ⟨hempty, later, hqueue⟩ := h
  refine ⟨hempty, ?_⟩
  rcases turn_packets process turn with hsame | ⟨data, k, _, _, hjoins⟩ | ⟨answers, hdrain⟩
  · exact ⟨later, hsame.trans hqueue⟩
  · refine ⟨later ++ [⟨data, k⟩], ?_⟩
    rw [hjoins, hqueue, List.append_assoc]
  · refine ⟨later, ?_⟩
    rw [hdrain, hqueue]
    exact drainLoop_stuck answers packet (rest ++ later) process.stdin hempty

/-- A packet without data at the head of the queue, and everything behind it, stays there through
all calls, also into the next children. -/
theorem calls_stuck (calls : List Call) (process : Process) {packet : OutPacket}
    {rest : List OutPacket} (h : Stuck process.packets packet rest) :
    Stuck (calls.foldl Process.call process).packets packet rest := by
  rw [calls_eq_turns]
  generalize calls.flatMap Call.turns = turns
  induction turns generalizing process with
  | nil => exact h
  | cons turn turns ih => exact ih (process.turn turn) (turn_stuck process turn h)

end Drain

end LibAtrinik.ChildProcess

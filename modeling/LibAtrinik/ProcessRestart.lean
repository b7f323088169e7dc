import LibAtrinik.Process
import Mathlib.Data.List.Forall2
import Mathlib.Data.List.Range

namespace LibAtrinik.ChildProcess

section Calls

/-- `process_stop`. A pass of `process_check` comes first. -/
def processStop (process : Process) (pass : Pass) (started : Bool) : Process :=
  if process.running = false then process
  else
    let process := processCheck process pass
    if process.running = false then process else processCleanup process started

/-- What is asked of a process from outside. -/
inductive Call where
  | event (event : Event)
  | start (started : Bool)
  | stop (pass : Pass) (started : Bool)

def Process.call (process : Process) : Call → Process
  | .event event => process.event event
  | .start started => (processStart process started).2
  | .stop pass started => processStop process pass started

/-- The parts of a call: writes to the pipe, the end of a child, and the start of one. -/
inductive Turn where
  | step (step : Step)
  | cleanup (started : Bool)
  | start (started : Bool)

def Process.turn (process : Process) : Turn → Process
  | .step (.send data answer) => processSend process { data := data } answer
  | .step (.drain answers) =>
    if process.running = false then process else processCheckPipeIn process answers
  | .cleanup started => processCleanup process started
  | .start started => (processStart process started).2

def Pass.turns (pass : Pass) : List Turn :=
  (Event.check pass).steps.map Turn.step ++ if pass.exited then [.cleanup pass.started] else []

def Call.turns : Call → List Turn
  | .event (.send data answer) => [.step (.send data answer)]
  | .event (.check pass) => pass.turns
  | .start started => [.start started]
  | .stop pass started => pass.turns ++ [.cleanup started]

/-- The packets that are given to `process_send`. -/
def sentPackets (turns : List Turn) : List (List UInt8) :=
  turns.flatMap fun
    | .step (.send data _) => [data]
    | _ => []

/-- The turn starts a child. -/
def Turn.StartsChild (process : Process) : Turn → Prop
  | .step _ => False
  | .cleanup started => process.running = true ∧ process.restart = true ∧ started = true
  | .start started => process.running = false ∧ started = true

instance (process : Process) : (turn : Turn) → Decidable (turn.StartsChild process)
  | .step _ => inferInstanceAs (Decidable False)
  | .cleanup started =>
    inferInstanceAs (Decidable (process.running = true ∧ process.restart = true ∧ started = true))
  | .start started => inferInstanceAs (Decidable (process.running = false ∧ started = true))

/-- No packet of the queue has been written in part. -/
def Process.AtBoundary (process : Process) : Prop := ∀ packet ∈ process.packets, packet.pos = 0

instance (process : Process) : Decidable process.AtBoundary :=
  inferInstanceAs (Decidable (∀ packet ∈ process.packets, packet.pos = 0))

/-- Whenever a child is started, no packet of the queue has been written in part. -/
def CleanStarts : Process → List Turn → Prop
  | _, [] => True
  | process, turn :: turns =>
    (turn.StartsChild process → process.AtBoundary) ∧ CleanStarts (process.turn turn) turns

instance decidableCleanStarts : (process : Process) → (turns : List Turn) →
    Decidable (CleanStarts process turns)
  | _, [] => inferInstanceAs (Decidable True)
  | process, turn :: turns =>
    have := decidableCleanStarts (process.turn turn) turns
    inferInstanceAs (Decidable (_ ∧ _))

end Calls

section Parts

theorem processSend_stopped (process : Process) (hstop : process.running = false)
    (data : List UInt8) (answer : ℤ) : processSend process { data := data } answer = process := by
  unfold processSend
  rw [if_pos hstop]

/-- The steps of a pass do nothing while no child runs, and are those of the running child else. -/
theorem steps_eq_turns (steps : List Step) (process : Process) :
    (steps.map Turn.step).foldl Process.turn process =
      if process.running = false then process else steps.foldl Process.step process := by
  induction steps generalizing process with
  | nil => exact (ite_self process).symm
  | cons step steps ih =>
    rw [List.map_cons, List.foldl_cons, List.foldl_cons, ih]
    cases hrun : process.running with
    | false =>
      have hsame : process.turn (.step step) = process := by
        cases step with
        | send data answer => exact processSend_stopped process hrun data answer
        | drain answers => exact if_pos hrun
      rw [hsame, if_pos hrun, if_pos rfl]
    | true =>
      have hne : ¬ process.running = false := by
        rw [hrun]
        decide
      have hsame : process.turn (.step step) = process.step step := by
        cases step with
        | send data answer => rfl
        | drain answers => exact if_neg hne
      have hrun' : ¬ (process.step step).running = false := by
        have hkeeps := steps_running [step] process hrun
        change (process.step step).running = true at hkeeps
        rw [hkeeps]
        decide
      rw [hsame, if_neg hrun', if_neg (by decide)]

theorem pass_eq_turns (process : Process) (pass : Pass) :
    processCheck process pass = pass.turns.foldl Process.turn process := by
  unfold Pass.turns
  rw [List.foldl_append, steps_eq_turns]
  cases hrun : process.running with
  | false =>
    rw [if_pos rfl]
    unfold processCheck
    rw [if_pos hrun]
    cases pass.exited with
    | false => rfl
    | true => exact (if_pos hrun).symm
  | true =>
    rw [if_neg (by decide)]
    -- without the exit the pass is an event that keeps the child
    have hkeep := event_eq_steps process hrun (.check { pass with exited := false }) rfl
    have hsteps : (Event.check { pass with exited := false }).steps = (Event.check pass).steps := rfl
    rw [hsteps] at hkeep
    rw [← hkeep]
    have hne : ¬ process.running = false := by
      rw [hrun]
      decide
    change _ = List.foldl Process.turn (processCheck process { pass with exited := false }) _
    unfold processCheck
    rw [if_neg hne, if_neg hne]
    dsimp only
    generalize (if pass.polled = true then _ else process) = last
    unfold processCheckExit
    cases hlast : last.running with
    | false =>
      rw [if_pos rfl, if_pos rfl]
      cases pass.exited with
      | false => rfl
      | true => exact (if_pos hlast).symm
    | true =>
      cases pass.exited with
      | false => rfl
      | true => rfl

theorem call_eq_turns (process : Process) (call : Call) :
    process.call call = call.turns.foldl Process.turn process := by
  cases call with
  | event event =>
    cases event with
    | send data answer => rfl
    | check pass => exact pass_eq_turns process pass
  | start started => rfl
  | stop pass started =>
    change processStop process pass started =
      (pass.turns ++ [Turn.cleanup started]).foldl Process.turn process
    rw [List.foldl_append, ← pass_eq_turns]
    unfold processStop
    by_cases hstop : process.running = false
    · have hcheck : processCheck process pass = process := if_pos hstop
      rw [if_pos hstop, hcheck]
      exact (if_pos hstop).symm
    · rw [if_neg hstop]
      dsimp only
      by_cases hstop' : (processCheck process pass).running = false
      · rw [if_pos hstop']
        exact (if_pos hstop').symm
      · rw [if_neg hstop']
        rfl

end Parts

section Origins

/-- One byte of a packet. The packets are numbered in the order in which they are given to
`process_send`. -/
structure Origin where
  packet : ℕ
  offset : ℕ
deriving DecidableEq

def byteAt (sent : List (List UInt8)) (origin : Origin) : Option UInt8 :=
  sent[origin.packet]?.bind fun data => data[origin.offset]?

/-- `k` bytes of a packet, from an offset on. -/
def bytesOf (number offset k : ℕ) : List Origin := (List.range' offset k).map (Origin.mk number)

/-- A process and, which it does not keep, the packets that it was given, the numbers of those in
its queue, and the origins of the bytes that the child of the moment has got. -/
structure Traced where
  process : Process
  sent : List (List UInt8) := []
  numbers : List ℕ := []
  origins : List Origin := []

/-- The numbers of the packets that `drainLoop` leaves, and the origins of what it writes. -/
def drainOrigins (answers : ℕ → ℤ) :
    List OutPacket → List ℕ → List Origin → List ℕ × List Origin
  | packet :: packets, number :: numbers, origins =>
    let ret := writeResult (packet.data.drop packet.pos).length (answers 0)
    if ret ≤ 0 then (number :: numbers, origins)
    else
      let origins := origins ++ bytesOf number packet.pos ret.toNat
      if packet.pos+ret.toNat = packet.data.length then
        drainOrigins (fun i => answers (i+1)) packets numbers origins
      else (number :: numbers, origins)
  | _, numbers, origins => (numbers, origins)

def Traced.turn (traced : Traced) (turn : Turn) : Traced :=
  let process := traced.process.turn turn
  match turn with
  | .step (.send data answer) =>
    let ret := writeResult data.length answer
    let number := traced.sent.length
    let sent := traced.sent ++ [data]
    if traced.process.running = false then { traced with process := process, sent := sent }
    else
      { process := process
        sent := sent
        numbers := traced.numbers ++ if 0 < ret ∧ ret.toNat = data.length then [] else [number]
        origins := traced.origins ++ bytesOf number 0 ret.toNat }
  | .step (.drain answers) =>
    let drained := drainOrigins answers traced.process.packets traced.numbers traced.origins
    if traced.process.running = false then { traced with process := process }
    else { traced with process := process, numbers := drained.1, origins := drained.2 }
  | turn =>
    { traced with
      process := process
      origins := if turn.StartsChild traced.process then [] else traced.origins }

/-- Each byte comes after the one before it in its packet. -/
def InTurn (origins : List Origin) : Prop :=
  ∀ before number offset, before ++ [Origin.mk number (offset+1)] <+: origins →
    Origin.mk number offset ∈ before

/-- The bytes have these origins, the first one is the first byte of its packet, and no packet is
continued in the middle. -/
structure FromTheFront (sent : List (List UInt8)) (stdin : List UInt8) (origins : List Origin) :
    Prop where
  named : origins.map (byteAt sent) = stdin.map some
  first : ∀ origin, origins.head? = some origin → origin.offset = 0
  onward : InTurn origins

end Origins

section Names

variable {sent : List (List UInt8)} {stdin : List UInt8} {origins : List Origin}

theorem bytesOf_succ (number offset k : ℕ) :
    bytesOf number offset (k+1) = ⟨number, offset⟩ :: bytesOf number (offset+1) k := by
  unfold bytesOf
  rw [List.range'_succ, List.map_cons]

theorem bytesOf_named (data : List UInt8) (number : ℕ) (hsent : sent[number]? = some data)
    (offset k : ℕ) (hk : k ≤ (data.drop offset).length) :
    (bytesOf number offset k).map (byteAt sent) = ((data.drop offset).take k).map some := by
  induction k generalizing offset with
  | zero => rfl
  | succ k ih =>
    have hlt : offset < data.length := by
      rw [List.length_drop] at hk
      omega
    have hrest : k ≤ (data.drop (offset+1)).length := by
      rw [List.length_drop] at hk ⊢
      omega
    have hbyte : byteAt sent ⟨number, offset⟩ = some data[offset] := by
      unfold byteAt
      rw [hsent, Option.bind_some]
      exact List.getElem?_eq_getElem hlt
    rw [bytesOf_succ, List.map_cons, ih (offset+1) hrest, hbyte, List.drop_eq_getElem_cons hlt,
      List.take_succ_cons, List.map_cons]

/-- A packet more does not change the bytes of the others. -/
theorem named_sent (hnamed : origins.map (byteAt sent) = stdin.map some) (data : List UInt8) :
    origins.map (byteAt (sent ++ [data])) = stdin.map some := by
  rw [← hnamed]
  apply List.map_congr_left
  intro origin hmem
  have hbyte : byteAt sent origin ∈ stdin.map some := hnamed ▸ List.mem_map_of_mem hmem
  obtain ⟨b, -, hb⟩ := List.mem_map.mp hbyte
  rw [← hb]
  obtain ⟨packet, hpacket, hoffset⟩ := Option.bind_eq_some_iff.mp hb.symm
  have hlt : origin.packet < sent.length := (List.getElem?_eq_some_iff.mp hpacket).1
  unfold byteAt
  rw [List.getElem?_append_left hlt, hpacket, Option.bind_some, hoffset]

theorem InTurn.nil : InTurn [] := by
  intro before number offset hprefix
  have hnil := List.prefix_nil.mp hprefix
  exact absurd (List.append_eq_nil_iff.mp hnil).2 (List.cons_ne_nil _ _)

theorem InTurn.append_one (h : InTurn origins) (number offset : ℕ)
    (hlast : ∀ j, offset = j+1 → Origin.mk number j ∈ origins) :
    InTurn (origins ++ [⟨number, offset⟩]) := by
  intro before number' offset' hprefix
  rcases List.prefix_concat_iff.mp hprefix with hall | hold
  · obtain ⟨hbefore, horigin⟩ := List.append_inj' hall rfl
    obtain ⟨hnumber, hoffset⟩ := Origin.mk.inj (List.head_eq_of_cons_eq horigin)
    rw [hbefore, hnumber]
    exact hlast offset' hoffset.symm
  · exact h before number' offset' hold

/-- A packet is continued where it was left, and is then left behind its last byte. -/
theorem InTurn.append_bytesOf (h : InTurn origins) (number offset k : ℕ)
    (hlast : ∀ j, offset = j+1 → Origin.mk number j ∈ origins) :
    InTurn (origins ++ bytesOf number offset k) ∧
      ∀ j, offset+k = j+1 → Origin.mk number j ∈ origins ++ bytesOf number offset k := by
  induction k generalizing origins offset with
  | zero =>
    change InTurn (origins ++ []) ∧ ∀ j, offset = j+1 → Origin.mk number j ∈ origins ++ []
    rw [List.append_nil]
    exact ⟨h, hlast⟩
  | succ k ih =>
    have hnext : ∀ j, offset+1 = j+1 → Origin.mk number j ∈ origins ++ [⟨number, offset⟩] := by
      intro j hj
      rw [← Nat.succ.inj hj]
      exact List.mem_append_right _ List.mem_cons_self
    have hrest := ih (h.append_one number offset hlast) (offset+1) hnext
    rw [bytesOf_succ, List.append_cons]
    refine ⟨hrest.1, ?_⟩
    intro j hj
    exact hrest.2 j (by omega)

theorem InTurn.first (h : InTurn origins) (origin : Origin) (hhead : origins.head? = some origin) :
    origin.offset = 0 := by
  obtain ⟨number, offset⟩ := origin
  obtain ⟨rest, hrest⟩ := List.head?_eq_some_iff.mp hhead
  cases offset with
  | zero => rfl
  | succ offset => cases h [] number offset ⟨rest, hrest.symm⟩

end Names

section Boundaries

/-- The packet has its number, and if it is written in part, the child has got the byte before the
place where it is left. -/
structure Numbered (sent : List (List UInt8)) (origins : List Origin) (packet : OutPacket)
    (number : ℕ) : Prop where
  data : sent[number]? = some packet.data
  left : ∀ j, packet.pos = j+1 → Origin.mk number j ∈ origins

/-- The invariant of a run. -/
structure Followed (sent : List (List UInt8)) (packets : List OutPacket) (numbers : List ℕ)
    (stdin : List UInt8) (origins : List Origin) : Prop where
  named : origins.map (byteAt sent) = stdin.map some
  onward : InTurn origins
  queued : List.Forall₂ (Numbered sent origins) packets numbers

variable {sent : List (List UInt8)} {packets : List OutPacket} {numbers : List ℕ}
  {stdin : List UInt8} {origins : List Origin}

theorem Numbered.mono {packet : OutPacket} {number : ℕ} (h : Numbered sent origins packet number)
    (more : List Origin) : Numbered sent (origins ++ more) packet number where
  data := h.data
  left := fun j hj => List.mem_append_left _ (h.left j hj)

/-- The next bytes of a packet are written. -/
theorem Followed.write (h : Followed sent packets numbers stdin origins) (packet : OutPacket)
    (number k : ℕ) (hpacket : Numbered sent origins packet number)
    (hk : k ≤ (packet.data.drop packet.pos).length) :
    Followed sent packets numbers (stdin ++ (packet.data.drop packet.pos).take k)
        (origins ++ bytesOf number packet.pos k) ∧
      Numbered sent (origins ++ bytesOf number packet.pos k) { packet with pos := packet.pos+k }
        number := by
  have honward := h.onward.append_bytesOf number packet.pos k hpacket.left
  refine ⟨⟨?_, honward.1, ?_⟩, ⟨hpacket.data, honward.2⟩⟩
  · rw [List.map_append, List.map_append, h.named,
      bytesOf_named packet.data number hpacket.data packet.pos k hk]
  · exact h.queued.imp fun packet' number' hqueued => hqueued.mono _

theorem drainLoop_followed (answers : ℕ → ℤ) (h : Followed sent packets numbers stdin origins) :
    Followed sent (drainLoop answers packets stdin).1
      (drainOrigins answers packets numbers origins).1 (drainLoop answers packets stdin).2
      (drainOrigins answers packets numbers origins).2 := by
  induction packets generalizing answers numbers stdin origins with
  | nil =>
    cases h.queued
    exact h
  | cons packet packets ih =>
    cases numbers with
    | nil => cases h.queued
    | cons number numbers =>
      obtain ⟨hpacket, hpackets⟩ := List.forall₂_cons.mp h.queued
      rw [drainLoop, drainOrigins]
      dsimp only
      have hle := writeResult_le (packet.data.drop packet.pos).length (answers 0)
      generalize writeResult (packet.data.drop packet.pos).length (answers 0) = ret at hle ⊢
      by_cases hnone : ret ≤ 0
      · rw [if_pos hnone, if_pos hnone]
        exact h
      rw [if_neg hnone, if_neg hnone]
      have hrest : Followed sent packets numbers stdin origins := ⟨h.named, h.onward, hpackets⟩
      obtain ⟨hwritten, hleft⟩ := hrest.write packet number ret.toNat hpacket hle
      by_cases hend : packet.pos+ret.toNat = packet.data.length
      · rw [if_pos hend, if_pos hend]
        exact ih _ hwritten
      · rw [if_neg hend, if_neg hend]
        exact ⟨hwritten.named, hwritten.onward, List.Forall₂.cons hleft hwritten.queued⟩

/-- A packet more. -/
theorem Followed.give (h : Followed sent packets numbers stdin origins) (data : List UInt8) :
    Followed (sent ++ [data]) packets numbers stdin origins where
  named := named_sent h.named data
  onward := h.onward
  queued := by
    apply h.queued.imp
    intro packet number hqueued
    have hlt : number < sent.length := (List.getElem?_eq_some_iff.mp hqueued.data).1
    exact ⟨(List.getElem?_append_left hlt).trans hqueued.data, hqueued.left⟩

theorem Followed.queue (h : Followed sent packets numbers stdin origins) (packet : OutPacket)
    (number : ℕ) (hpacket : Numbered sent origins packet number) :
    Followed sent (packets ++ [packet]) (numbers ++ [number]) stdin origins where
  named := h.named
  onward := h.onward
  queued := List.rel_append h.queued (List.Forall₂.cons hpacket List.Forall₂.nil)

/-- What a run keeps. -/
def Traced.Sound (traced : Traced) : Prop :=
  Followed traced.sent traced.process.packets traced.numbers traced.process.stdin traced.origins

theorem send_sound (traced : Traced) (data : List UInt8) (answer : ℤ) (h : traced.Sound) :
    (traced.turn (.step (.send data answer))).Sound := by
  have hgiven := h.give data
  unfold Traced.Sound Traced.turn
  dsimp only [Process.turn]
  by_cases hstop : traced.process.running = false
  · rw [if_pos hstop, processSend_stopped traced.process hstop data answer]
    exact hgiven
  rw [if_neg hstop]
  unfold processSend
  rw [if_neg hstop]
  dsimp only [Process.accept]
  have hle := writeResult_le data.length answer
  generalize writeResult data.length answer = ret at hle ⊢
  have hnew : Numbered (traced.sent ++ [data]) traced.origins { data := data } traced.sent.length :=
    ⟨List.getElem?_concat_length, fun j hj => by cases hj⟩
  obtain ⟨hwritten, hleft⟩ := hgiven.write { data := data } traced.sent.length ret.toNat hnew hle
  by_cases hnone : ret ≤ 0
  · rw [if_pos hnone, if_neg (fun hall => absurd hall.1 (by omega))]
    rw [Int.toNat_of_nonpos hnone] at hwritten hleft ⊢
    exact hwritten.queue _ _ hleft
  by_cases hall : ret.toNat = data.length
  · rw [if_neg hnone, if_pos hall, if_pos ⟨by omega, hall⟩, List.append_nil]
    exact hwritten
  · rw [if_neg hnone, if_neg hall, if_neg (fun hend => hall hend.2)]
    have hpos : (0 : ℕ)+ret.toNat = ret.toNat := Nat.zero_add _
    rw [hpos] at hleft
    exact hwritten.queue _ _ hleft

theorem drain_sound (traced : Traced) (answers : ℕ → ℤ) (h : traced.Sound) :
    (traced.turn (.step (.drain answers))).Sound := by
  unfold Traced.Sound Traced.turn
  dsimp only [Process.turn]
  by_cases hstop : traced.process.running = false
  · rw [if_pos hstop, if_pos hstop]
    exact h
  · rw [if_neg hstop, if_neg hstop]
    exact drainLoop_followed answers h

/-- A child that is started has got nothing, and the queue stays. -/
theorem turn_starts (process : Process) (turn : Turn) (hstarts : turn.StartsChild process) :
    process.turn turn = { process with running := true, stdin := [] } := by
  cases turn with
  | step step => cases hstarts
  | cleanup started =>
    obtain ⟨hrun, hrestart, hstarted⟩ := hstarts
    change processCleanup process started = _
    unfold processCleanup processStart
    rw [if_neg (by rw [hrun]; decide), hstarted]
    exact if_pos hrestart
  | start started =>
    obtain ⟨hstop, hstarted⟩ := hstarts
    change (processStart process started).2 = _
    unfold processStart
    rw [if_neg (by rw [hstop]; decide), hstarted]
    rfl

/-- Without a new child the pipe and the queue are as they were. -/
theorem turn_same (process : Process) (turn : Turn) (hturn : ∀ step, turn ≠ .step step)
    (hstarts : ¬ turn.StartsChild process) :
    (process.turn turn).packets = process.packets ∧
      (process.turn turn).stdin = process.stdin := by
  cases turn with
  | step step => exact absurd rfl (hturn step)
  | cleanup started =>
    change (processCleanup process started).packets = _ ∧
      (processCleanup process started).stdin = _
    unfold processCleanup processStart
    by_cases hstop : process.running = false
    · rw [if_pos hstop]
      exact ⟨rfl, rfl⟩
    rw [if_neg hstop]
    by_cases hrestart : process.restart = true
    · cases started with
      | false =>
        dsimp only
        rw [if_pos hrestart]
        exact ⟨rfl, rfl⟩
      | true => exact absurd ⟨Bool.eq_true_of_not_eq_false hstop, hrestart, rfl⟩ hstarts
    · dsimp only
      rw [if_neg hrestart]
      exact ⟨rfl, rfl⟩
  | start started =>
    change (processStart process started).2.packets = _ ∧ (processStart process started).2.stdin = _
    unfold processStart
    by_cases hrun : process.running = true
    · rw [if_pos hrun]
      exact ⟨rfl, rfl⟩
    rw [if_neg hrun]
    cases started with
    | false => exact ⟨rfl, rfl⟩
    | true => exact absurd ⟨Bool.eq_false_iff.mpr hrun, rfl⟩ hstarts

theorem turn_sound (traced : Traced) (turn : Turn) (h : traced.Sound)
    (hclean : turn.StartsChild traced.process → traced.process.AtBoundary) :
    (traced.turn turn).Sound := by
  have hother (turn : Turn) (hturn : ∀ step, turn ≠ .step step)
      (hclean : turn.StartsChild traced.process → traced.process.AtBoundary) :
      Followed traced.sent (traced.process.turn turn).packets traced.numbers
        (traced.process.turn turn).stdin
        (if turn.StartsChild traced.process then [] else traced.origins) := by
    by_cases hstarts : turn.StartsChild traced.process
    · rw [if_pos hstarts, turn_starts traced.process turn hstarts]
      refine ⟨rfl, InTurn.nil, List.forall₂_iff_zip.mpr ⟨h.queued.length_eq, ?_⟩⟩
      intro packet number hzip
      refine ⟨((List.forall₂_iff_zip.mp h.queued).2 hzip).data, ?_⟩
      -- no packet of the queue has a place where it was left
      intro j hj
      rw [hclean hstarts packet (List.of_mem_zip hzip).1] at hj
      cases hj
    · obtain ⟨hpackets, hstdin⟩ := turn_same traced.process turn hturn hstarts
      rw [if_neg hstarts, hpackets, hstdin]
      exact h
  cases turn with
  | step step =>
    cases step with
    | send data answer => exact send_sound traced data answer h
    | drain answers => exact drain_sound traced answers h
  | cleanup started => exact hother _ (fun step heq => by cases heq) hclean
  | start started => exact hother _ (fun step heq => by cases heq) hclean

theorem turn_process (traced : Traced) (turn : Turn) :
    (traced.turn turn).process = traced.process.turn turn ∧
      (traced.turn turn).sent = traced.sent ++ sentPackets [turn] := by
  unfold Traced.turn
  cases turn with
  | step step =>
    cases step with
    | send data answer =>
      dsimp only
      by_cases hstop : traced.process.running = false
      · rw [if_pos hstop]
        exact ⟨rfl, rfl⟩
      · rw [if_neg hstop]
        exact ⟨rfl, rfl⟩
    | drain answers =>
      dsimp only
      by_cases hstop : traced.process.running = false
      · rw [if_pos hstop]
        exact ⟨rfl, (List.append_nil _).symm⟩
      · rw [if_neg hstop]
        exact ⟨rfl, (List.append_nil _).symm⟩
  | cleanup started => exact ⟨rfl, (List.append_nil _).symm⟩
  | start started => exact ⟨rfl, (List.append_nil _).symm⟩

/-- The origins are kept beside the process and do not change it. -/
theorem turns_process (turns : List Turn) (traced : Traced) :
    (turns.foldl Traced.turn traced).process = turns.foldl Process.turn traced.process ∧
      (turns.foldl Traced.turn traced).sent = traced.sent ++ sentPackets turns := by
  induction turns generalizing traced with
  | nil => exact ⟨rfl, (List.append_nil _).symm⟩
  | cons turn turns ih =>
    obtain ⟨hprocess, hsent⟩ := turn_process traced turn
    obtain ⟨hprocess', hsent'⟩ := ih (traced.turn turn)
    have hsplit : sentPackets (turn :: turns) = sentPackets [turn] ++ sentPackets turns := by
      simp only [sentPackets, List.flatMap_cons, List.flatMap_nil, List.append_nil]
    rw [List.foldl_cons, List.foldl_cons, hprocess', hsent', hprocess, hsent, hsplit,
      List.append_assoc]
    exact ⟨rfl, rfl⟩

theorem turns_sound (turns : List Turn) (traced : Traced) (h : traced.Sound)
    (hclean : CleanStarts traced.process turns) : (turns.foldl Traced.turn traced).Sound := by
  induction turns generalizing traced with
  | nil => exact h
  | cons turn turns ih =>
    have hturn := turn_sound traced turn h hclean.1
    have hrest := hclean.2
    rw [← (turn_process traced turn).1] at hrest
    exact ih (traced.turn turn) hturn hrest

end Boundaries

theorem calls_eq_turns (calls : List Call) (process : Process) :
    calls.foldl Process.call process = (calls.flatMap Call.turns).foldl Process.turn process := by
  induction calls generalizing process with
  | nil => rfl
  | cons call calls ih =>
    rw [List.foldl_cons, List.flatMap_cons, List.foldl_append, ih, call_eq_turns]

theorem cleanStarts_append (turns rest : List Turn) (process : Process)
    (h : CleanStarts process (turns ++ rest)) : CleanStarts process turns := by
  induction turns generalizing process with
  | nil => trivial
  | cons turn turns ih => exact ⟨h.1, ih (process.turn turn) h.2⟩

/-- A process that restarts its child, before the first call. -/
def tracedCreate : Traced := { process := processCreate true }

/-- At every moment of the calls, what the child of the moment has got begins with the first byte of
a packet, and no packet is continued in the middle. -/
def BeginsWithPackets (calls : List Call) : Prop :=
  ∀ turns, turns <+: calls.flatMap Call.turns →
    FromTheFront (sentPackets turns) (turns.foldl Process.turn (processCreate true)).stdin
      (turns.foldl Traced.turn tracedCreate).origins

/-- The calls are their parts, one after the other, and if children are only started at the boundary
of packets, they get packets from the front. -/
theorem beginsWithPackets_of_cleanStarts (calls : List Call)
    (hclean : CleanStarts (processCreate true) (calls.flatMap Call.turns)) :
    calls.foldl Process.call (processCreate true) =
        (calls.flatMap Call.turns).foldl Process.turn (processCreate true) ∧
      BeginsWithPackets calls := by
  refine ⟨calls_eq_turns calls _, ?_⟩
  intro turns hprefix
  obtain ⟨rest, hrest⟩ := hprefix
  rw [← hrest] at hclean
  have hempty : tracedCreate.Sound := ⟨rfl, InTurn.nil, List.Forall₂.nil⟩
  have hsound := turns_sound turns tracedCreate hempty (cleanStarts_append turns rest _ hclean)
  obtain ⟨hprocess, hsent⟩ := turns_process turns tracedCreate
  have hnamed := hsound.named
  rw [hprocess, hsent] at hnamed
  exact ⟨hnamed, hsound.onward.first, hsound.onward⟩

/-- A packet that one child takes in two parts while another one waits, the restart, and what the
next child gets. -/
theorem beginsWithPackets_of_cleanStarts_two :
    BeginsWithPackets [.start true, .event (.send [1, 2] 1), .event (.send [3, 4] 0),
      .event (.check ⟨true, false, fun i => 1-i, [], true, true⟩),
      .event (.check ⟨true, false, fun _ => 5, [], false, false⟩)] := by
  exact (beginsWithPackets_of_cleanStarts _ (by decide)).2

/-- The first child takes one byte of two and exits. The next one gets the other byte first. -/
theorem not_beginsWithPackets : ¬ ∀ calls, BeginsWithPackets calls := by
  intro h
  have hfront := h [.start true, .event (.send [1, 2] 1),
    .event (.check ⟨false, false, fun _ => 0, [], true, true⟩),
    .event (.check ⟨true, false, fun _ => 1, [], false, false⟩)] _ (List.prefix_refl _)
  exact absurd (hfront.first ⟨0, 1⟩ (by decide)) (by decide)

end LibAtrinik.ChildProcess

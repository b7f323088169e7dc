import Mathlib.Algebra.Order.Group.Nat
import Mathlib.Data.List.Chain
import Mathlib.Data.List.Infix

namespace LibAtrinik.Punch

/-- `socket_punch_action_t`. -/
inductive SocketPunchAction where
  | wait | send | complete
deriving DecidableEq, Repr

def socketPunchCount : ℕ := 10
def socketPunchIntervalMs : ℕ := 100

/-- `socket_punch_pacer_t`. -/
structure SocketPunchPacer where
  nextActionMs : UInt64 := 0
  attempts : UInt32 := 0
  graceMs : UInt32 := 0
  active : Bool := false
deriving DecidableEq, Repr, Inhabited

def socketPunchPacerStart (pacer : SocketPunchPacer) (nowMs : UInt64) (graceMs : UInt32) :
    SocketPunchPacer :=
  { pacer with nextActionMs := nowMs, attempts := 0, graceMs := graceMs, active := true }

def socketPunchPacerPoll (pacer : SocketPunchPacer) (nowMs : UInt64) : SocketPunchAction :=
  if !pacer.active || nowMs < pacer.nextActionMs then .wait
  else if pacer.attempts.toNat < socketPunchCount then .send
  else .complete

def socketPunchPacerAdvance (pacer : SocketPunchPacer) (nowMs : UInt64)
    (action : SocketPunchAction) : SocketPunchPacer :=
  match action with
  | .send =>
    let attempts := pacer.attempts+1
    let delay := if attempts.toNat < socketPunchCount then UInt64.ofNat socketPunchIntervalMs
      else pacer.graceMs.toUInt64
    { pacer with attempts := attempts, nextActionMs := nowMs+delay }
  | .complete => { pacer with active := false }
  | .wait => pacer

/-- One poll, and the answer passed on at the same time. -/
def SocketPunchPacer.turn (pacer : SocketPunchPacer) (nowMs : UInt64) : SocketPunchPacer :=
  socketPunchPacerAdvance pacer nowMs (socketPunchPacerPoll pacer nowMs)

/-- An answer with the time at which it was given. -/
structure Answer where
  nowMs : UInt64
  action : SocketPunchAction
deriving DecidableEq, Repr

/-- The answers to polls at the given times. -/
def answers (pacer : SocketPunchPacer) : List UInt64 → List Answer
  | [] => []
  | now :: times => ⟨now, socketPunchPacerPoll pacer now⟩ :: answers (pacer.turn now) times

/-- The answers without those that only say to wait. -/
def actions (given : List Answer) : List Answer := given.filter (·.action ≠ .wait)

/-- The times at which probes have been sent. -/
def sent (given : List Answer) : List UInt64 :=
  (given.filter (·.action = .send)).map (·.nowMs)

/-- When the next action is due: at once, an interval after the last probe, or the grace period
after it when all of them have been sent. -/
def due (start : UInt64) (graceMs : UInt32) (sent : List UInt64) : ℕ :=
  match sent.getLast? with
  | none => start.toNat
  | some last => last.toNat+
    if sent.length < socketPunchCount then socketPunchIntervalMs else graceMs.toNat

/-- Two answers that follow each other, with nothing but waiting between them. -/
def Spaced (graceMs : UInt32) (a b : Answer) : Prop :=
  match b.action with
  | .send => a.nowMs.toNat+socketPunchIntervalMs ≤ b.nowMs.toNat
  | .complete => a.nowMs.toNat+graceMs.toNat ≤ b.nowMs.toNat
  | .wait => True

/-- The answers by which the probes in `sent` were sent. -/
def sends (sent : List UInt64) : List Answer := sent.map fun now => ⟨now, .send⟩

/-- The state of a pacer that was started at `start` and has answered with `acts`, after which
the probes in `times` have been sent. -/
structure Paced (start : UInt64) (graceMs : UInt32) (acts : List Answer) (times : List UInt64)
    (pacer : SocketPunchPacer) : Prop where
  grace : pacer.graceMs = graceMs
  attempts : pacer.attempts.toNat = times.length
  next : pacer.nextActionMs.toNat = due start graceMs times
  count : times.length ≤ socketPunchCount
  running : pacer.active = true → acts = sends times
  finished : pacer.active = false → times.length = socketPunchCount ∧
    ∃ now, acts = sends times ++ [⟨now, .complete⟩]
  spaced : acts.IsChain (Spaced graceMs)

section lists

variable (given later : List Answer) (now : UInt64)

@[simp] theorem actions_append : actions (given ++ later) = actions given ++ actions later :=
  List.filter_append ..

@[simp] theorem sent_append : sent (given ++ later) = sent given ++ sent later := by
  simp only [sent, List.filter_append, List.map_append]

@[simp] theorem actions_wait : actions [⟨now, .wait⟩] = [] := rfl

@[simp] theorem actions_send : actions [⟨now, .send⟩] = [⟨now, .send⟩] := rfl

@[simp] theorem actions_complete : actions [⟨now, .complete⟩] = [⟨now, .complete⟩] := rfl

@[simp] theorem sent_wait : sent [⟨now, .wait⟩] = [] := rfl

@[simp] theorem sent_send : sent [⟨now, .send⟩] = [now] := rfl

@[simp] theorem sent_complete : sent [⟨now, .complete⟩] = [] := rfl

theorem sends_append (times : List UInt64) : sends (times ++ [now]) = sends times ++ [⟨now, .send⟩] :=
  List.map_append

end lists

/-- What a poll answers, and when. -/
theorem poll_cases (pacer : SocketPunchPacer) (now : UInt64) :
    (socketPunchPacerPoll pacer now = .wait ∧
      (pacer.active = false ∨ now.toNat < pacer.nextActionMs.toNat)) ∨
    (socketPunchPacerPoll pacer now = .send ∧ pacer.active = true ∧
      pacer.nextActionMs.toNat ≤ now.toNat ∧ pacer.attempts.toNat < socketPunchCount) ∨
    (socketPunchPacerPoll pacer now = .complete ∧ pacer.active = true ∧
      pacer.nextActionMs.toNat ≤ now.toNat ∧ socketPunchCount ≤ pacer.attempts.toNat) := by
  unfold socketPunchPacerPoll
  cases hactive : pacer.active with
  | false => exact Or.inl ⟨rfl, Or.inl rfl⟩
  | true =>
    by_cases hearly : now < pacer.nextActionMs
    · rw [if_pos (by simpa using hearly)]
      exact Or.inl ⟨rfl, Or.inr (UInt64.lt_iff_toNat_lt.mp hearly)⟩
    have hdue : pacer.nextActionMs.toNat ≤ now.toNat :=
      Nat.le_of_not_lt fun h => hearly (UInt64.lt_iff_toNat_lt.mpr h)
    rw [if_neg (by simpa using hearly)]
    by_cases hleft : pacer.attempts.toNat < socketPunchCount
    · rw [if_pos hleft]
      exact Or.inr (Or.inl ⟨rfl, rfl, hdue, hleft⟩)
    · rw [if_neg hleft]
      exact Or.inr (Or.inr ⟨rfl, rfl, hdue, Nat.le_of_not_lt hleft⟩)

/-- The deadline after a probe does not wrap around when the time leaves room for the delay. -/
theorem deadline_toNat (now delay : UInt64) (hnow : now.toNat+2^32 < 2^64)
    (hdelay : delay.toNat < 2^32) : (now+delay).toNat = now.toNat+delay.toNat := by
  rw [UInt64.toNat_add, Nat.mod_eq_of_lt (by omega)]

theorem paced_start (pacer : SocketPunchPacer) (start : UInt64) (graceMs : UInt32) :
    Paced start graceMs [] [] (socketPunchPacerStart pacer start graceMs) where
  grace := rfl
  attempts := rfl
  next := rfl
  count := Nat.zero_le _
  running _ := rfl
  finished h := nomatch h
  spaced := List.IsChain.nil

variable {start : UInt64} {graceMs : UInt32} {acts : List Answer} {times : List UInt64}
  {pacer : SocketPunchPacer}

/-- While a pacer is active, the last thing it did was to send the last probe. -/
theorem Paced.last (h : Paced start graceMs acts times pacer) (hactive : pacer.active = true)
    (a : Answer) (ha : a ∈ acts.getLast?) : times.getLast? = some a.nowMs := by
  rw [h.running hactive, sends, List.getLast?_map, Option.mem_def, Option.map_eq_some_iff] at ha
  obtain ⟨last, hlast, rfl⟩ := ha
  exact hlast

theorem Paced.send (h : Paced start graceMs acts times pacer) (now : UInt64)
    (hactive : pacer.active = true) (hdue : pacer.nextActionMs.toNat ≤ now.toNat)
    (hleft : pacer.attempts.toNat < socketPunchCount) (hnow : now.toNat+2^32 < 2^64) :
    Paced start graceMs (acts ++ [⟨now, .send⟩]) (times ++ [now])
      (socketPunchPacerAdvance pacer now .send) := by
  rw [h.attempts] at hleft
  have hlength : (times ++ [now]).length = times.length+1 := List.length_append
  have hattempts : (pacer.attempts+1).toNat = (times ++ [now]).length := by
    rw [hlength, UInt32.toNat_add, h.attempts, UInt32.toNat_one, Nat.mod_eq_of_lt]
    simp only [socketPunchCount] at hleft
    omega
  refine ⟨h.grace, hattempts, ?_, ?_, ?_, ?_, ?_⟩
  · show (now+if (pacer.attempts+1).toNat < socketPunchCount then
      UInt64.ofNat socketPunchIntervalMs else pacer.graceMs.toUInt64).toNat = _
    rw [hattempts, h.grace, due, List.getLast?_concat]
    dsimp only
    split_ifs with hmore
    · exact deadline_toNat now _ hnow (by decide)
    · exact deadline_toNat now _ hnow graceMs.toNat_lt
  · rw [hlength]
    exact hleft
  · intro _
    rw [h.running hactive, sends_append]
  · intro hstopped
    exact absurd hactive (by rw [show pacer.active = false from hstopped]; decide)
  · -- the deadline that has passed was set by the last probe
    rw [List.isChain_append]
    refine ⟨h.spaced, List.isChain_singleton _, ?_⟩
    intro a ha b hb
    obtain rfl : (⟨now, .send⟩ : Answer) = b := by simpa using hb
    have hnext := h.next
    rw [due, h.last hactive a ha] at hnext
    simp only [if_pos hleft] at hnext
    show a.nowMs.toNat+socketPunchIntervalMs ≤ now.toNat
    omega

theorem Paced.complete (h : Paced start graceMs acts times pacer) (now : UInt64)
    (hactive : pacer.active = true) (hdue : pacer.nextActionMs.toNat ≤ now.toNat)
    (hfull : socketPunchCount ≤ pacer.attempts.toNat) :
    Paced start graceMs (acts ++ [⟨now, .complete⟩]) times
      (socketPunchPacerAdvance pacer now .complete) := by
  rw [h.attempts] at hfull
  refine ⟨h.grace, h.attempts, h.next, h.count, fun hactive => (nomatch hactive), ?_, ?_⟩
  · intro _
    exact ⟨Nat.le_antisymm h.count hfull, now, by rw [h.running hactive]⟩
  · -- after the last attempt the deadline is the end of the grace period
    rw [List.isChain_append]
    refine ⟨h.spaced, List.isChain_singleton _, ?_⟩
    intro a ha b hb
    obtain rfl : (⟨now, .complete⟩ : Answer) = b := by simpa using hb
    have hnext := h.next
    rw [due, h.last hactive a ha] at hnext
    simp only [if_neg (Nat.not_lt.mpr hfull)] at hnext
    show a.nowMs.toNat+graceMs.toNat ≤ now.toNat
    omega

variable {given : List Answer}

/-- One poll keeps the account of the answers. -/
theorem Paced.turn (h : Paced start graceMs (actions given) (sent given) pacer) (now : UInt64)
    (hnow : now.toNat+2^32 < 2^64) :
    Paced start graceMs (actions (given ++ [⟨now, socketPunchPacerPoll pacer now⟩]))
      (sent (given ++ [⟨now, socketPunchPacerPoll pacer now⟩])) (pacer.turn now) := by
  unfold SocketPunchPacer.turn
  rw [actions_append, sent_append]
  rcases poll_cases pacer now with ⟨hpoll, _⟩ | ⟨hpoll, hactive, hdue, hleft⟩ |
    ⟨hpoll, hactive, hdue, hfull⟩
  · rw [hpoll, actions_wait, sent_wait, List.append_nil, List.append_nil]
    exact h
  · rw [hpoll, actions_send, sent_send]
    exact h.send now hactive hdue hleft hnow
  · rw [hpoll, actions_complete, sent_complete, List.append_nil]
    exact h.complete now hactive hdue hfull

/-- The pacer after polls at the given times. -/
def SocketPunchPacer.after (pacer : SocketPunchPacer) (times : List UInt64) : SocketPunchPacer :=
  times.foldl SocketPunchPacer.turn pacer

/-- Each answer is the one of the pacer that has given the answers before it. -/
theorem answers_split (pacer : SocketPunchPacer) (times : List UInt64) (before later : List Answer)
    (a : Answer) (h : answers pacer times = before ++ a :: later) :
    ∃ earlier rest, times = earlier ++ a.nowMs :: rest ∧ answers pacer earlier = before ∧
      a.action = socketPunchPacerPoll (pacer.after earlier) a.nowMs := by
  induction times generalizing pacer before with
  | nil => simp [answers] at h
  | cons now times ih =>
    cases before with
    | nil =>
      obtain ⟨rfl, _⟩ := List.cons.inj h
      exact ⟨[], times, rfl, rfl, rfl⟩
    | cons b before =>
      obtain ⟨rfl, hrest⟩ := List.cons.inj h
      obtain ⟨earlier, rest, rfl, hbefore, ha⟩ := ih (pacer.turn now) before hrest
      exact ⟨now :: earlier, rest, rfl, by rw [answers, hbefore], ha⟩

theorem Paced.after (h : Paced start graceMs (actions given) (sent given) pacer)
    (polls : List UInt64) (hpolls : ∀ now ∈ polls, now.toNat+2^32 < 2^64) :
    Paced start graceMs (actions (given ++ answers pacer polls))
      (sent (given ++ answers pacer polls)) (pacer.after polls) := by
  induction polls generalizing given pacer with
  | nil =>
    rw [answers, List.append_nil]
    exact h
  | cons now polls ih =>
    have hturn := h.turn now (hpolls now List.mem_cons_self)
    have hrest := ih hturn fun later hlater => hpolls later (List.mem_cons_of_mem now hlater)
    rw [List.append_assoc] at hrest
    exact hrest

/-- A pacer is active until it has answered that it is done. -/
theorem Paced.active_iff (h : Paced start graceMs acts times pacer) :
    pacer.active = true ↔ ∀ a ∈ acts, a.action ≠ .complete := by
  constructor
  · intro hactive a ha
    rw [h.running hactive, sends, List.mem_map] at ha
    obtain ⟨now, _, rfl⟩ := ha
    exact fun h => nomatch h
  · intro hnone
    by_contra hstopped
    obtain ⟨_, now, hacts⟩ := h.finished (by simpa using hstopped)
    exact hnone ⟨now, .complete⟩ (by rw [hacts]; simp) rfl

/-- The actions of a pacer, in their order. -/
theorem Paced.order (h : Paced start graceMs acts times pacer) :
    acts.map (·.action) <+: List.replicate socketPunchCount .send ++ [.complete] := by
  have hsends : (sends times).map (·.action) = List.replicate times.length .send := by
    rw [sends, List.map_map]
    exact List.map_const' ..
  cases hactive : pacer.active with
  | true =>
    rw [h.running hactive, hsends]
    have hsplit : List.replicate socketPunchCount SocketPunchAction.send =
        List.replicate times.length .send ++
          List.replicate (socketPunchCount-times.length) .send := by
      rw [← List.replicate_add, Nat.add_sub_cancel' h.count]
    rw [hsplit, List.append_assoc]
    exact List.prefix_append ..
  | false =>
    obtain ⟨hfull, now, hacts⟩ := h.finished hactive
    rw [hacts, List.map_append, hsends, hfull]
    exact List.prefix_refl _

/-- After a start, whatever the times of the polls are, the answers other than `WAIT` are probes
and then the end, in order and at their distances; a poll that is due is not answered with
`WAIT`, and after the end every poll is. -/
theorem pacer_paces (pacer : SocketPunchPacer) (start : UInt64) (graceMs : UInt32)
    (times : List UInt64) (htimes : ∀ now ∈ times, now.toNat+2^32 < 2^64) :
    let given := answers (socketPunchPacerStart pacer start graceMs) times
    (actions given).map (·.action) <+: List.replicate socketPunchCount .send ++ [.complete] ∧
    (actions given).IsChain (Spaced graceMs) ∧
    ∀ before a later, given = before ++ a :: later →
      ((∀ b ∈ before, b.action ≠ .complete) → due start graceMs (sent before) ≤ a.nowMs.toNat →
        a.action ≠ .wait) ∧
      ((∃ b ∈ before, b.action = .complete) → a.action = .wait) := by
  intro given
  have hstart : Paced start graceMs (actions []) (sent [])
      (socketPunchPacerStart pacer start graceMs) := paced_start pacer start graceMs
  have hend := hstart.after times htimes
  refine ⟨hend.order, hend.spaced, ?_⟩
  intro before a later hsplit
  obtain ⟨earlier, rest, rfl, rfl, ha⟩ := answers_split _ times before later a hsplit
  -- the account of the answers at the moment when this one is given
  have hpaced := hstart.after earlier fun now hnow => htimes now (List.mem_append_left _ hnow)
  rw [List.nil_append] at hpaced
  rw [ha]
  have hactive := hpaced.active_iff
  simp only [actions, List.mem_filter] at hactive
  constructor
  · intro hgoing hdue
    have hrunning := hactive.mpr fun b hb => hgoing b hb.1
    rcases poll_cases _ a.nowMs with ⟨_, hstopped | hearly⟩ | ⟨hpoll, _⟩ | ⟨hpoll, _⟩
    · rw [hrunning] at hstopped
      exact nomatch hstopped
    · rw [hpaced.next] at hearly
      exact absurd hdue (Nat.not_le.mpr hearly)
    · rw [hpoll]
      decide
    · rw [hpoll]
      decide
  · rintro ⟨b, hb, hcomplete⟩
    have hstopped := mt hactive.mp fun h => h b ⟨hb, by rw [hcomplete]; decide⟩ hcomplete
    rcases poll_cases _ a.nowMs with ⟨hpoll, _⟩ | ⟨_, hrunning, _⟩ | ⟨_, hrunning, _⟩
    · exact hpoll
    · exact absurd hrunning hstopped
    · exact absurd hrunning hstopped

/-- Two polls before a probe is due, one of them late, and the last one just in time. -/
theorem pacer_paces_late :
    let given := answers (socketPunchPacerStart default 5 40) [3, 5, 80, 250, 349, 350]
    actions given = sends [5, 250, 350] ∧
    (actions given).map (·.action) <+: List.replicate socketPunchCount .send ++ [.complete] := by
  exact ⟨by decide, (pacer_paces default 5 40 [3, 5, 80, 250, 349, 350] (by simp)).1⟩

end LibAtrinik.Punch

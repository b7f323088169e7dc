import LibAtrinik.ProcessRestart

namespace LibAtrinik.ChildProcess

section Code

/-- A `struct pollfd`, with the process and the pipe that it was registered for. -/
structure PollFd where
  owner : ℕ
  pipe : Fin 3
  fd : ℤ
  pollout : Bool
deriving DecidableEq, Repr

/-- The processes, by their identifiers. -/
abbrev Table := ℕ → Process

/-- A call that a callback makes for a process. What the callbacks in the pass of a `process_stop`
do comes before it. -/
abbrev Act := ℕ × Call

/-- The descriptors of the processes, the answers of the system, and what the callbacks do.
Descriptors are found hung up, and taken from, by their place. -/
structure Host where
  fd : ℕ → Fin 3 → ℤ
  ready : Bool
  hangup : ℕ → Bool
  writes : ℕ → ℕ → ℤ
  callback : ℕ → Fin 3 → List Act
  exited : ℕ → Bool
  started : ℕ → Bool

variable (host : Host)

/-- `process_check_internal_begin`. -/
def registered (table : Table) (uid : ℕ) : List PollFd :=
  [⟨uid, 0, host.fd uid 0, (table uid).packets ≠ []⟩, ⟨uid, 1, host.fd uid 1, false⟩,
    ⟨uid, 2, host.fd uid 2, false⟩]

/-- The first loop of `process_check_all`. -/
def beginLoop (table : Table) : List ℕ → List PollFd → List PollFd
  | [], fds => fds
  | uid :: uids, fds =>
    if (table uid).running = false then beginLoop table uids fds
    else beginLoop table uids (fds ++ registered host table uid)

def Table.act (table : Table) (act : Act) : Table :=
  Function.update table act.1 ((table act.1).call act.2)

/-- `process_check_internal_pipe`, where the bytes that the pipe to the child takes are not
followed. -/
def checkInternalPipe (table : Table) (uid idx : ℕ) (pipe : Fin 3) : Table :=
  if pipe = 0 then
    let process := table uid
    Function.update table uid
      { process with packets := (drainLoop (host.writes idx) process.packets []).1 }
  else (host.callback uid pipe).foldl Table.act table

/-- Where the second loop is, and with what each process has been handled. -/
structure Served where
  table : Table
  idx : ℕ
  log : List (ℕ × List PollFd)

/-- The loop of `process_check_internal_end` over the pipes, with the descriptors that it has looked
at. -/
def endPipes (fds : List PollFd) (uid : ℕ) : List (Fin 3) → Table → ℕ → List PollFd →
    Table × ℕ × List PollFd
  | [], table, idx, seen => (table, idx, seen)
  | pipe :: pipes, table, idx, seen =>
    match fds[idx]? with
    | none => (table, idx, seen)
    | some entry =>
      let table :=
        if host.hangup idx then table else checkInternalPipe host table uid idx pipe
      endPipes fds uid pipes table (idx+1) (seen ++ [entry])

/-- `process_check_internal_end`. -/
def checkInternalEnd (fds : List PollFd) (served : Served) (uid : ℕ) : Served :=
  let result := endPipes host fds uid [0, 1, 2] served.table served.idx []
  ⟨result.1, result.2.1, served.log ++ [(uid, result.2.2)]⟩

/-- The second loop of `process_check_all`. -/
def endLoop (fds : List PollFd) (served : Served) (uid : ℕ) : Served :=
  if (served.table uid).running = false then served else checkInternalEnd host fds served uid

/-- `process_check_all`, with the log of what each process was handled with. -/
def processCheckAll (uids : List ℕ) (table : Table) : Table × List (ℕ × List PollFd) :=
  let fds := beginLoop host table uids []
  let served : Served :=
    if host.ready = true ∧ fds ≠ [] then uids.foldl (endLoop host fds) ⟨table, 0, []⟩
    else ⟨table, 0, []⟩
  let table := uids.foldl
    (fun table uid => Function.update table uid
      (processCheckExit (table uid) (host.exited uid) (host.started uid))) served.table
  (table, served.log)

end Code

section Statements

variable (host : Host)

/-- A process is handled with the descriptors that were registered for it. -/
def HandledWithOwn (table : Table) (handled : ℕ × List PollFd) : Prop :=
  (table handled.1).running = true ∧ handled.2 = registered host table handled.1

instance (table : Table) (handled : ℕ × List PollFd) : Decidable (HandledWithOwn host table handled) :=
  inferInstanceAs (Decidable (_ ∧ _))

/-- Whenever the second loop comes to a process, it runs if and only if it did in the first loop; or
it has been stopped and no process after it runs. -/
def Unmoved (fds : List PollFd) (table : Table) : List ℕ → Served → Prop
  | [], _ => True
  | uid :: uids, served =>
    ((table uid).running = (served.table uid).running ∧
      Unmoved fds table uids (endLoop host fds served uid)) ∨
    ((table uid).running = true ∧ (served.table uid).running = false ∧
      ∀ uid' ∈ uids, (served.table uid').running = false)

/-- The condition on a pass: the loop is not run, or no callback moves the processes. -/
def UnmovedPass (uids : List ℕ) (table : Table) : Prop :=
  host.ready = true → Unmoved host (beginLoop host table uids []) table uids ⟨table, 0, []⟩

end Statements

section Loops

variable {host : Host} {table : Table}

theorem beginLoop_eq (uids : List ℕ) (fds : List PollFd) :
    beginLoop host table uids fds =
      fds ++ (uids.filter fun uid => (table uid).running).flatMap (registered host table) := by
  induction uids generalizing fds with
  | nil => exact (List.append_nil fds).symm
  | cons uid uids ih =>
    unfold beginLoop
    cases hrun : (table uid).running with
    | false => rw [if_pos rfl, ih, List.filter_cons_of_neg (by rw [hrun]; decide)]
    | true =>
      rw [if_neg (by decide), ih, @List.filter_cons_of_pos _ (fun uid => (table uid).running) _ _ hrun,
        List.flatMap_cons, List.append_assoc]

/-- The descriptors that are looked at are the next ones. -/
theorem endPipes_seen (fds : List PollFd) (uid : ℕ) (pipes : List (Fin 3)) (current : Table)
    (idx : ℕ) (seen : List PollFd) :
    ∃ current', endPipes host fds uid pipes current idx seen =
      (current', idx+((fds.drop idx).take pipes.length).length,
        seen ++ (fds.drop idx).take pipes.length) := by
  induction pipes generalizing current idx seen with
  | nil => exact ⟨current, by rw [endPipes, List.length_nil, List.take_zero, List.append_nil]; rfl⟩
  | cons pipe pipes ih =>
    cases hentry : fds[idx]? with
    | none =>
      have hend : fds.drop idx = [] :=
        List.drop_eq_nil_of_le (List.getElem?_eq_none_iff.mp hentry)
      refine ⟨current, ?_⟩
      rw [hend, List.take_nil, List.append_nil]
      unfold endPipes
      rw [hentry]
      rfl
    | some entry =>
      obtain ⟨hlt, hget⟩ := List.getElem?_eq_some_iff.mp hentry
      have hdrop : fds.drop idx = entry :: fds.drop (idx+1) := by
        rw [List.drop_eq_getElem_cons hlt, hget]
      obtain ⟨current', hrest⟩ := ih
        (if host.hangup idx then current else checkInternalPipe host current uid idx pipe) (idx+1)
        (seen ++ [entry])
      refine ⟨current', ?_⟩
      rw [hdrop, List.length_cons, List.take_succ_cons, List.length_cons]
      unfold endPipes
      rw [hentry]
      dsimp only
      rw [hrest, List.append_assoc, List.singleton_append]
      have hidx : idx+1+((fds.drop (idx+1)).take pipes.length).length =
          idx+(((fds.drop (idx+1)).take pipes.length).length+1) := by omega
      rw [hidx]

theorem registered_length (uid : ℕ) : (registered host table uid).length = 3 := rfl

theorem take_registered (uid : ℕ) (rest : List PollFd) :
    (registered host table uid ++ rest).take 3 = registered host table uid := rfl

theorem registered_inj {uid uid' : ℕ} (h : registered host table uid = registered host table uid') :
    uid = uid' := congrArg PollFd.owner (List.cons.inj h).1

theorem endLoop_handled (fds : List PollFd) (served : Served) (uid : ℕ)
    (hrun : (served.table uid).running = true) :
    (endLoop host fds served uid).log =
        served.log ++ [(uid, (fds.drop served.idx).take 3)] ∧
      (endLoop host fds served uid).idx =
        served.idx+((fds.drop served.idx).take 3).length := by
  obtain ⟨current', hseen⟩ := endPipes_seen fds uid [0, 1, 2] served.table served.idx []
  have hne : ¬ (served.table uid).running = false := by
    rw [hrun]
    decide
  unfold endLoop checkInternalEnd
  rw [if_neg hne, hseen]
  exact ⟨rfl, rfl⟩

theorem endLoop_stopped (fds : List PollFd) (served : Served) (uid : ℕ)
    (hstop : (served.table uid).running = false) : endLoop host fds served uid = served :=
  if_pos hstop

theorem unmoved_cons (fds : List PollFd) (uid : ℕ) (uids : List ℕ) (served : Served) :
    Unmoved host fds table (uid :: uids) served ↔
      ((table uid).running = (served.table uid).running ∧
        Unmoved host fds table uids (endLoop host fds served uid)) ∨
      ((table uid).running = true ∧ (served.table uid).running = false ∧
        ∀ uid' ∈ uids, (served.table uid').running = false) := Iff.rfl

/-- Nothing that has been logged is forgotten. -/
theorem endLoop_log (fds : List PollFd) (uids : List ℕ) (served : Served) :
    ∃ more, (uids.foldl (endLoop host fds) served).log = served.log ++ more := by
  induction uids generalizing served with
  | nil => exact ⟨[], (List.append_nil _).symm⟩
  | cons uid uids ih =>
    obtain ⟨more, hmore⟩ := ih (endLoop host fds served uid)
    rw [List.foldl_cons, hmore]
    by_cases hstop : (served.table uid).running = false
    · rw [endLoop_stopped fds served uid hstop]
      exact ⟨more, rfl⟩
    · rw [(endLoop_handled fds served uid (Bool.eq_true_of_not_eq_false hstop)).1, List.append_assoc]
      exact ⟨_, rfl⟩

/-- No process runs that is left, so none is handled. -/
theorem foldl_stopped (fds : List PollFd) (uids : List ℕ) (served : Served)
    (hstop : ∀ uid ∈ uids, (served.table uid).running = false) :
    uids.foldl (endLoop host fds) served = served := by
  induction uids with
  | nil => rfl
  | cons uid uids ih =>
    rw [List.foldl_cons, endLoop_stopped fds served uid (hstop uid List.mem_cons_self)]
    exact ih fun uid' hmem => hstop uid' (List.mem_cons_of_mem _ hmem)

/-- A process whose descriptors are the next ones has been passed over. Another one that runs is
handled with them. -/
theorem foldl_passed (fds : List PollFd) (uids : List ℕ) (served : Served) (uid : ℕ)
    (rest : List PollFd) (hnext : fds.drop served.idx = registered host table uid ++ rest)
    (hmem : uid ∉ uids)
    (hown : ∀ handled ∈ (uids.foldl (endLoop host fds) served).log, HandledWithOwn host table handled) :
    ∀ uid' ∈ uids, (served.table uid').running = false := by
  induction uids with
  | nil =>
    intro uid' hmem'
    cases hmem'
  | cons uid₁ uids ih =>
    have hstop : (served.table uid₁).running = false := by
      apply Bool.eq_false_iff.mpr
      intro hrun
      obtain ⟨hlog, _⟩ := endLoop_handled fds served uid₁ hrun
      obtain ⟨more, hmore⟩ := endLoop_log fds uids (endLoop host fds served uid₁)
      have hhandled := (hown (uid₁, (fds.drop served.idx).take 3) (by
        rw [List.foldl_cons, hmore, hlog]
        exact List.mem_append_left _ (List.mem_append_right _ (List.mem_singleton.mpr rfl)))).2
      have htake : (fds.drop served.idx).take 3 = registered host table uid := by
        rw [hnext]
        exact take_registered uid rest
      rw [htake] at hhandled
      rw [registered_inj hhandled] at hmem
      exact hmem List.mem_cons_self
    rw [List.foldl_cons, endLoop_stopped fds served uid₁ hstop] at hown
    intro uid' hmem'
    rcases List.mem_cons.mp hmem' with heq | hrest
    · rw [heq]
      exact hstop
    · exact ih (fun hin => hmem (List.mem_cons_of_mem _ hin)) hown uid' hrest

/-- The descriptors that are left are those of the processes that are left. -/
theorem foldl_handled (fds : List PollFd) (uids : List ℕ) (served : Served) (hnodup : uids.Nodup)
    (hleft : fds.drop served.idx =
      (uids.filter fun uid => (table uid).running).flatMap (registered host table))
    (hlog : ∀ handled ∈ served.log, HandledWithOwn host table handled) :
    (∀ handled ∈ (uids.foldl (endLoop host fds) served).log, HandledWithOwn host table handled) ↔
      Unmoved host fds table uids served := by
  induction uids generalizing served with
  | nil => exact ⟨fun _ => trivial, fun _ => hlog⟩
  | cons uid uids ih =>
    obtain ⟨hmem, hnodup'⟩ := List.nodup_cons.mp hnodup
    rw [List.foldl_cons]
    cases hfirst : (table uid).running with
    | false =>
      rw [List.filter_cons_of_neg (by rw [hfirst]; decide)] at hleft
      cases hnow : (served.table uid).running with
      | false =>
        rw [endLoop_stopped fds served uid hnow, ih served hnodup' hleft hlog]
        rw [unmoved_cons, hfirst, hnow, endLoop_stopped fds served uid hnow]
        constructor
        · intro h
          exact Or.inl ⟨rfl, h⟩
        · intro h
          rcases h with h | h
          · exact h.2
          · cases h.1
      | true =>
        -- the process was not registered
        obtain ⟨hlog', _⟩ := endLoop_handled fds served uid hnow
        obtain ⟨more, hmore⟩ := endLoop_log fds uids (endLoop host fds served uid)
        rw [unmoved_cons, hfirst, hnow]
        constructor
        · intro h
          have hown := h (uid, (fds.drop served.idx).take 3) (by
            rw [hmore, hlog']
            exact List.mem_append_left _ (List.mem_append_right _ (List.mem_singleton.mpr rfl)))
          exact absurd (hown.1.symm.trans hfirst) (by decide)
        · intro h
          rcases h with h | h
          · cases h.1
          · cases h.1
    | true =>
      rw [@List.filter_cons_of_pos _ (fun uid => (table uid).running) _ _ hfirst,
        List.flatMap_cons] at hleft
      cases hnow : (served.table uid).running with
      | true =>
        obtain ⟨hlog', hidx'⟩ := endLoop_handled fds served uid hnow
        have htake : (fds.drop served.idx).take 3 = registered host table uid := by
          rw [hleft]
          exact take_registered uid _
        rw [htake] at hlog' hidx'
        rw [registered_length] at hidx'
        have hleft' : fds.drop (endLoop host fds served uid).idx =
            (uids.filter fun uid => (table uid).running).flatMap (registered host table) := by
          rw [hidx', ← List.drop_drop, hleft]
          rfl
        rw [ih _ hnodup' hleft' (by
          intro handled hin
          rw [hlog'] at hin
          rcases List.mem_append.mp hin with hold | hnew
          · exact hlog handled hold
          · rw [List.mem_singleton.mp hnew]
            exact ⟨hfirst, rfl⟩)]
        rw [unmoved_cons]
        constructor
        · intro h
          exact Or.inl ⟨hfirst.trans hnow.symm, h⟩
        · intro h
          rcases h with h | h
          · exact h.2
          · exact absurd (hnow.symm.trans h.2.1) (by decide)
      | false =>
        rw [endLoop_stopped fds served uid hnow]
        rw [unmoved_cons, hfirst, hnow]
        constructor
        · intro h
          exact Or.inr ⟨rfl, rfl, foldl_passed fds uids served uid _ hleft hmem h⟩
        · intro h
          rcases h with h | h
          · cases h.1
          · rw [foldl_stopped fds uids served h.2.2]
            exact hlog

end Loops

/-- Each process that a pass handles is handled with its own descriptors if and only if no callback
moves the processes that the loop has not come to yet. -/
theorem checkAll_handledWithOwn_iff (host : Host) (uids : List ℕ) (table : Table)
    (hnodup : uids.Nodup) :
    (∀ handled ∈ (processCheckAll host uids table).2, HandledWithOwn host table handled) ↔
      UnmovedPass host uids table := by
  have hfds : beginLoop host table uids [] = [] ++ _ := beginLoop_eq uids []
  rw [List.nil_append] at hfds
  have hmain := foldl_handled (beginLoop host table uids []) uids ⟨table, 0, []⟩ hnodup hfds
    (fun handled hmem => by cases hmem)
  unfold processCheckAll UnmovedPass
  dsimp only
  by_cases hready : host.ready = true
  · by_cases hempty : beginLoop host table uids [] = []
    · -- no process runs
      have hstop : ∀ uid ∈ uids, (table uid).running = false := by
        intro uid hmem
        apply Bool.eq_false_iff.mpr
        intro hrun
        rw [hfds, List.flatMap_eq_nil_iff] at hempty
        cases hempty uid (List.mem_filter.mpr ⟨hmem, hrun⟩)
      rw [if_neg (fun h => h.2 hempty), ← hmain, foldl_stopped _ uids ⟨table, 0, []⟩ hstop]
      exact ⟨fun h _ => h, fun h => h hready⟩
    · rw [if_pos ⟨hready, hempty⟩, hmain]
      exact ⟨fun h _ => h, fun h => h hready⟩
  · rw [if_neg (fun h => hready h.1)]
    constructor
    · intro _ h
      exact absurd h hready
    · intro _ handled hmem
      cases hmem

section Callbacks

/-- Three processes, of which the callback of the first one makes a call for the second one. -/
def callingHost (call : Call) : Host where
  fd := fun uid pipe => 3*uid+pipe.val
  ready := true
  hangup := fun _ => false
  writes := fun _ _ => 0
  callback := fun uid pipe => if uid = 0 ∧ pipe = 1 then [(1, call)] else []
  exited := fun _ => false
  started := fun _ => false

theorem checkAll_handledWithOwn_three : UnmovedPass
    (callingHost (.event (.send [1, 2] 1))) [0, 1, 2] fun _ => startedProcess false := by
  apply (checkAll_handledWithOwn_iff _ _ _ (by decide)).mp
  decide

/-- The callback of the first process stops the second one, and the third one is handled with the
descriptors of the second. -/
theorem not_handledWithOwn :
    ¬ ∀ (host : Host) (uids : List ℕ) (table : Table), uids.Nodup →
      ∀ handled ∈ (processCheckAll host uids table).2, HandledWithOwn host table handled := by
  intro h
  have hall := h (callingHost (.stop ⟨false, false, fun _ => 0, [], false, false⟩ false)) [0, 1, 2]
    (fun _ => startedProcess false) (by decide)
  revert hall
  decide

end Callbacks

end LibAtrinik.ChildProcess

import Mathlib.Algebra.BigOperators.Fin
import Mathlib.Data.Fintype.BigOperators
import Mathlib.Logic.Relation
import LibAtrinik.QuicCandidates

/-! The race of the handshakes in `socket_quic_client_create`. Each task is a thread that takes its
steps between those of the others; what handshakes, socket and thread creations come to, and when
the creating thread stops waiting, is open. Times and the counters that are only logged are left
out. -/
namespace LibAtrinik.Quic

/-- Where `socket_quic_candidate_thread` is: not called yet, at the head of its loop, at the
creation of the socket, in the handshake, behind the loop, or back. -/
inductive Phase where
  | idle | checking | opening | shaking | closing | done
deriving DecidableEq, Repr

/-- `socket_quic_candidate_task_t` with the entries that have not been tried. The result comes with
the selected candidate and its rank. -/
structure Task where
  phase : Phase := .idle
  left : List Entry
  socket : Option ℕ := none
  result : Option (ℕ × Entry) := none

/-- What a step of a task does outside the task. -/
structure Effect where
  opened : Bool := false
  used : Option ℕ := none
  succeeded : Option (Entry × ℕ) := none
  destroyed : List ℕ := []
  finished : Bool := false

/-- The steps of `socket_quic_candidate_thread`, given what it reads: whether the race is cancelled
and which socket would be created next. -/
inductive TaskStep (cancelled : Bool) (fresh : ℕ) : Task → Task → Effect → Prop where
  | exhausted (socket : Option ℕ) (result : Option (ℕ × Entry)) :
    TaskStep cancelled fresh ⟨.checking, [], socket, result⟩ ⟨.closing, [], socket, result⟩ {}
  | stopped (e : Entry) (left : List Entry) (socket : Option ℕ) (result : Option (ℕ × Entry))
      (h : cancelled = true) :
    TaskStep cancelled fresh ⟨.checking, e :: left, socket, result⟩
      ⟨.closing, e :: left, socket, result⟩ {}
  | proceeds (e : Entry) (left : List Entry) (socket : Option ℕ) (result : Option (ℕ × Entry))
      (h : cancelled = false) :
    TaskStep cancelled fresh ⟨.checking, e :: left, socket, result⟩
      ⟨.opening, e :: left, socket, result⟩ {}
  | keeps (e : Entry) (left : List Entry) (x : ℕ) (result : Option (ℕ × Entry)) :
    TaskStep cancelled fresh ⟨.opening, e :: left, some x, result⟩
      ⟨.shaking, e :: left, some x, result⟩ {}
  | opens (e : Entry) (left : List Entry) (result : Option (ℕ × Entry)) :
    TaskStep cancelled fresh ⟨.opening, e :: left, none, result⟩
      ⟨.shaking, e :: left, some fresh, result⟩ { opened := true }
  | openFails (e : Entry) (left : List Entry) (result : Option (ℕ × Entry)) :
    TaskStep cancelled fresh ⟨.opening, e :: left, none, result⟩
      ⟨.checking, left, none, result⟩ {}
  | fails (e : Entry) (left : List Entry) (x : ℕ) (result : Option (ℕ × Entry)) :
    TaskStep cancelled fresh ⟨.shaking, e :: left, some x, result⟩
      ⟨.checking, left, some x, result⟩ { used := some x }
  | connects (e : Entry) (left : List Entry) (x : ℕ) (result : Option (ℕ × Entry)) :
    TaskStep cancelled fresh ⟨.shaking, e :: left, some x, result⟩
      ⟨.closing, e :: left, none, some (x, e)⟩ { used := some x, succeeded := some (e, x) }
  | closes (left : List Entry) (socket : Option ℕ) (result : Option (ℕ × Entry)) :
    TaskStep cancelled fresh ⟨.closing, left, socket, result⟩ ⟨.done, left, none, result⟩
      { destroyed := socket.toList, finished := true }

/-- Where `socket_quic_client_create` is: at the creation of the first socket, at the creation of
the thread of a task, in the function of a task whose thread could not be created, in the loop
that waits, at the joins, or back. -/
inductive Main where
  | opening
  | creating (i : ℕ)
  | inline (i : ℕ)
  | waiting
  | joining
  | returned (selected : Option ℕ)
deriving DecidableEq, Repr

/-- Sockets are numbered as they are created. What was done to them is recorded: the tasks for
which they were created, their destructions, and the handshakes. -/
structure State (n : ℕ) where
  main : Main := .opening
  task : Fin n → Task
  started : Fin n → Bool := fun _ => false
  cancelled : Bool := false
  completed : ℕ := 0
  bestRank : Option ℕ := none
  owners : List (Fin n) := []
  destroyed : List ℕ := []
  uses : List (Fin n × ℕ) := []
  succeeded : List (Entry × ℕ) := []

variable {n : ℕ}

/-- The best rank after a task has finished. -/
def betterRank (best : Option ℕ) : Option (ℕ × Entry) → Option ℕ
  | none => best
  | some (_, e) =>
    match best with
    | none => some e.rank
    | some rank => if e.rank < rank then some e.rank else some rank

/-- The state after a step of a task, with `socket_quic_candidate_finished` in its last one. -/
def State.after (s : State n) (i : Fin n) (t : Task) (effect : Effect) : State n :=
  { s with
    task := Function.update s.task i t
    completed := if effect.finished then s.completed+1 else s.completed
    bestRank := if effect.finished then betterRank s.bestRank t.result else s.bestRank
    owners := if effect.opened then s.owners ++ [i] else s.owners
    destroyed := s.destroyed ++ effect.destroyed
    uses := s.uses ++ (effect.used.map fun x => (i, x)).toList
    succeeded := s.succeeded ++ effect.succeeded.toList }

/-- The call of the thread function of a task. -/
def State.enter (s : State n) (i : Fin n) (started : Bool) (main : Main) : State n :=
  { s with
    main := main
    task := Function.update s.task i { s.task i with phase := .checking }
    started := Function.update s.started i started }

/-- The loop that selects the result with the least rank and destroys the others. -/
def selectLoop : List (Option (ℕ × Entry)) → Option (ℕ × Entry) → List ℕ →
    Option (ℕ × Entry) × List ℕ
  | [], selected, destroyed => (selected, destroyed)
  | none :: results, selected, destroyed => selectLoop results selected destroyed
  | some result :: results, none, destroyed => selectLoop results (some result) destroyed
  | some result :: results, some selected, destroyed =>
    if result.2.rank < selected.2.rank then
      selectLoop results (some result) (destroyed ++ [selected.1])
    else selectLoop results (some selected) (destroyed ++ [result.1])

def State.results (s : State n) : List (Option (ℕ × Entry)) := List.ofFn fun i => (s.task i).result

/-- The state in which `socket_quic_client_create` returns. -/
def State.select (s : State n) : State n :=
  let (selected, destroyed) := selectLoop s.results none s.destroyed
  { s with main := .returned (selected.map Prod.fst), destroyed := destroyed }

/-- The steps of `socket_quic_client_create` and of the tasks. `initial` is the task that gets the
first socket. The loop that waits can be left when all tasks are complete or a rank is known; how
long it goes on then depends on the time. -/
inductive Step (initial : Fin n) : State n → State n → Prop where
  | openFails (s : State n) (h : s.main = .opening) :
    Step initial s { s with main := .returned none }
  | opens (s : State n) (h : s.main = .opening) :
    Step initial s { s with
      main := .creating 0
      task := Function.update s.task initial
        { s.task initial with socket := some s.owners.length }
      owners := s.owners ++ [initial] }
  | creates (s : State n) (i : Fin n) (h : s.main = .creating i) :
    Step initial s (s.enter i true (.creating (i+1)))
  | createFails (s : State n) (i : Fin n) (h : s.main = .creating i) :
    Step initial s (s.enter i false (.inline i))
  | resumes (s : State n) (i : Fin n) (h : s.main = .inline i) (hdone : (s.task i).phase = .done) :
    Step initial s { s with main := .creating (i+1) }
  | waits (s : State n) (h : s.main = .creating n) :
    Step initial s { s with main := .waiting }
  | leaves (s : State n) (h : s.main = .waiting)
      (hleave : s.completed = n ∨ s.bestRank ≠ none) :
    Step initial s { s with main := .joining, cancelled := s.cancelled || s.bestRank.isSome }
  | selects (s : State n) (h : s.main = .joining)
      (hjoined : ∀ i, s.started i = true → (s.task i).phase = .done) :
    Step initial s s.select
  | task (s : State n) (i : Fin n) (t : Task) (effect : Effect)
      (h : TaskStep s.cancelled s.owners.length (s.task i) t effect) :
    Step initial s (s.after i t effect)

def start (plan : Fin n → List Entry) : State n := { task := fun i => { left := plan i } }

def Reaches (plan : Fin n → List Entry) (initial : Fin n) (s : State n) : Prop :=
  Relation.ReflTransGen (Step initial) (start plan) s

/-- The sockets that a task has: the one that it works with and the one that it has connected. -/
def Task.held (t : Task) : List ℕ := t.socket.toList ++ (t.result.map Prod.fst).toList

structure Task.Sound (plan : List Entry) (t : Task) : Prop where
  left : t.left <:+ plan
  result : ∀ x e, t.result = some (x, e) →
    e ∈ plan ∧ (t.phase = .closing ∨ t.phase = .done)
  entry : t.phase = .opening ∨ t.phase = .shaking → t.left ≠ []
  socket : t.phase = .shaking → t.socket ≠ none
  closed : t.phase = .done → t.socket = none

variable {cancelled : Bool} {fresh : ℕ} {plan : List Entry} {t t' : Task} {effect : Effect}

/-- A result is there in the last two phases only. -/
theorem Task.Sound.result_eq_none (h : t.Sound plan) (hclosing : t.phase ≠ .closing)
    (hdone : t.phase ≠ .done) : t.result = none := by
  rw [Option.eq_none_iff_forall_ne_some]
  rintro ⟨x, e⟩ hresult
  rcases (h.result x e hresult).2 with hphase | hphase
  · exact hclosing hphase
  · exact hdone hphase

theorem TaskStep.sound (hstep : TaskStep cancelled fresh t t' effect) (h : t.Sound plan) :
    t'.Sound plan := by
  have hnone := h.result_eq_none
  cases hstep with
  | exhausted socket result =>
    exact ⟨h.left, fun x e hr => ⟨(h.result x e hr).1, Or.inl rfl⟩, by simp, by simp, by simp⟩
  | stopped e left socket result hc =>
    exact ⟨h.left, fun x e hr => ⟨(h.result x e hr).1, Or.inl rfl⟩, by simp, by simp, by simp⟩
  | proceeds e left socket result hc =>
    obtain rfl : result = none := hnone (by simp) (by simp)
    exact ⟨h.left, by simp, by simp, by simp, by simp⟩
  | keeps e left x result =>
    obtain rfl : result = none := hnone (by simp) (by simp)
    exact ⟨h.left, by simp, by simp, by simp, by simp⟩
  | opens e left result =>
    obtain rfl : result = none := hnone (by simp) (by simp)
    exact ⟨h.left, by simp, by simp, by simp, by simp⟩
  | openFails e left result =>
    obtain rfl : result = none := hnone (by simp) (by simp)
    exact ⟨(List.suffix_cons e left).trans h.left, by simp, by simp, by simp, by simp⟩
  | fails e left x result =>
    obtain rfl : result = none := hnone (by simp) (by simp)
    exact ⟨(List.suffix_cons e left).trans h.left, by simp, by simp, by simp, by simp⟩
  | connects e left x result =>
    refine ⟨h.left, ?_, by simp, by simp, by simp⟩
    intro y f hr
    obtain ⟨-, rfl⟩ := Prod.mk.inj (Option.some.inj hr)
    exact ⟨h.left.subset List.mem_cons_self, Or.inl rfl⟩
  | closes left socket result =>
    exact ⟨h.left, fun x e hr => ⟨(h.result x e hr).1, Or.inr rfl⟩, by simp, by simp, by simp⟩

/-- Sockets come from creation and go by destruction. -/
theorem TaskStep.held_count (hstep : TaskStep cancelled fresh t t' effect) (h : t.Sound plan)
    (x : ℕ) : t'.held.count x+effect.destroyed.count x =
      t.held.count x+if effect.opened = true ∧ x = fresh then 1 else 0 := by
  have hnone := h.result_eq_none
  cases hstep with
  | exhausted socket result => simp [Task.held]
  | stopped e left socket result hc => simp [Task.held]
  | proceeds e left socket result hc => simp [Task.held]
  | keeps e left y result => simp [Task.held]
  | opens e left result =>
    simp only [Task.held, List.count_append, Option.toList, List.count_nil, List.count_singleton,
      Nat.zero_add, Nat.add_zero, true_and, beq_iff_eq]
    rw [Nat.add_comm]
    congr 1
    exact if_congr eq_comm rfl rfl
  | openFails e left result => simp [Task.held]
  | fails e left y result => simp [Task.held]
  | connects e left y result =>
    obtain rfl : result = none := hnone (by simp) (by simp)
    simp [Task.held]
  | closes left socket result =>
    simp [Task.held, List.count_append, Nat.add_comm]

/-- A task uses a socket that it holds, and keeps what it holds or destroys it. -/
theorem TaskStep.held_of (hstep : TaskStep cancelled fresh t t' effect) :
    (∀ x ∈ t'.held, x ∈ t.held ∨ effect.opened = true ∧ x = fresh) ∧
      (∀ x, effect.used = some x → x ∈ t.held) := by
  cases hstep <;> simp [Task.held] <;> tauto

/-- Handshakes succeed where results come from. -/
theorem TaskStep.result_iff (hstep : TaskStep cancelled fresh t t' effect) (h : t.Sound plan)
    (x : ℕ) (e : Entry) : t'.result = some (x, e) ↔
      t.result = some (x, e) ∨ effect.succeeded = some (e, x) := by
  have hnone := h.result_eq_none
  cases hstep with
  | connects f left y result =>
    obtain rfl : result = none := hnone (by simp) (by simp)
    simp [and_comm]
  | _ => simp

theorem TaskStep.phase_ne (hstep : TaskStep cancelled fresh t t' effect) :
    t.phase ≠ .idle ∧ t.phase ≠ .done ∧ t'.phase ≠ .idle ∧
      (effect.finished = true ↔ t'.phase = .done) := by
  cases hstep <;> simp

/-- The steps that a task has left, at most. -/
def Task.work (t : Task) : ℕ :=
  match t.phase with
  | .idle => 3*t.left.length+3
  | .checking => 3*t.left.length+2
  | .opening => 3*t.left.length+1
  | .shaking => 3*t.left.length
  | .closing => 1
  | .done => 0

theorem TaskStep.work_lt (hstep : TaskStep cancelled fresh t t' effect) : t'.work < t.work := by
  cases hstep <;> simp only [Task.work, List.length_cons] <;> omega

/-- A task that has been called and is not back has a step. -/
theorem Task.Sound.exists_step (h : t.Sound plan) (hidle : t.phase ≠ .idle)
    (hdone : t.phase ≠ .done) (cancelled : Bool) (fresh : ℕ) :
    ∃ t' effect, TaskStep cancelled fresh t t' effect := by
  obtain ⟨phase, left, socket, result⟩ := t
  cases phase with
  | idle => exact absurd rfl hidle
  | done => exact absurd rfl hdone
  | closing => exact ⟨_, _, .closes left socket result⟩
  | checking =>
    cases left with
    | nil => exact ⟨_, _, .exhausted socket result⟩
    | cons e left =>
      cases cancelled with
      | true => exact ⟨_, _, .stopped e left socket result rfl⟩
      | false => exact ⟨_, _, .proceeds e left socket result rfl⟩
  | opening =>
    obtain ⟨e, rest, rfl⟩ := List.exists_cons_of_ne_nil (h.entry (Or.inl rfl))
    cases socket with
    | none => exact ⟨_, _, .opens e rest result⟩
    | some x => exact ⟨_, _, .keeps e rest x result⟩
  | shaking =>
    obtain ⟨e, rest, rfl⟩ := List.exists_cons_of_ne_nil (h.entry (Or.inr rfl))
    obtain ⟨x, rfl⟩ := Option.ne_none_iff_exists'.mp (h.socket rfl)
    exact ⟨_, _, .fails e rest x result⟩

end LibAtrinik.Quic

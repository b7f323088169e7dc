import LibAtrinik.PacketScopes
import Mathlib.Logic.Function.Basic

namespace LibAtrinik.Packet

section Code

/-- A reader, the address of its data, and the scope that it is bound to. -/
structure BoundReader where
  reader : PacketReader
  address : Option ℕ
  scope : Option ℕ

/-- The scopes of a thread, of which `active` is `packet_active_reader_scope`, and its readers. Each
scope that is begun has a number of its own. -/
structure Thread where
  scopes : ℕ → Scope
  count : ℕ
  active : Option ℕ
  readers : ℕ → Option BoundReader

def Thread.init : Thread := ⟨fun _ => {}, 0, none, fun _ => none⟩

/-- What a thread does. The null pointer has the address `none`, and then the data only counts by
its length. -/
inductive Call where
  | scopeBegin
  | init (r : ℕ) (address : Option ℕ) (data : List UInt8) (pos : ℕ)
  | operate (r : ℕ) (operation : Operation)
  | scopeFinish

/-- What a call gives back. -/
inductive Answer where
  | nothing
  | value (ok : Bool) (bytes : List UInt8)
  | finished (error : PacketError)
deriving DecidableEq, Repr

/-- The reader that `packet_reader_init_at` makes, before it is checked. -/
def initReader (data : List UInt8) (pos : ℕ) : PacketReader := { data := data, pos := pos }

/-- The data of a reader cannot be read. -/
def invalidAt (address : Option ℕ) (data : List UInt8) (pos : ℕ) : Prop :=
  (address = none ∧ data.length ≠ 0) ∨ pos > data.length

instance (address : Option ℕ) (data : List UInt8) (pos : ℕ) : Decidable (invalidAt address data pos) :=
  inferInstanceAs (Decidable (_ ∨ _))

/-- A scope that is bound to other data. -/
def Scope.foreign (s : Scope) (address : Option ℕ) (len : ℕ) : Prop :=
  s.initialized = true ∧ (s.data ≠ address ∨ s.len ≠ len)

instance (s : Scope) (address : Option ℕ) (len : ℕ) : Decidable (s.foreign address len) :=
  inferInstanceAs (Decidable (_ ∧ _))

/-- A scope is bound to the data of its first reader. -/
def Scope.bind (s : Scope) (address : Option ℕ) (len pos : ℕ) : Scope :=
  if s.initialized = false then
    { s with data := address, len := len, pos := pos, initialized := true }
  else s

/-- `packet_reader_init_at`, with the scope that is active. The reader is bound to it or to none. -/
def scopedInitAt (scope : Option Scope) (address : Option ℕ) (data : List UInt8) (pos : ℕ) :
    ScopedReader :=
  let scope :=
    match scope with
    | some s => if s.foreign address data.length then none else some s
    | none => none
  let scope := scope.map fun s => s.bind address data.length pos
  if invalidAt address data pos then scopedFail (initReader data 0, scope) .invalidEncoding
  else (initReader data pos, scope)

def Thread.scope (t : Thread) (i : Option ℕ) : Option Scope := i.map t.scopes

/-- The scope of a reader is written back. -/
def Thread.setScope (t : Thread) (i : Option ℕ) (scope : Option Scope) : Thread :=
  match i, scope with
  | some i, some s => { t with scopes := Function.update t.scopes i s }
  | _, _ => t

/-- `packet_reader_scope_finish` for a scope whose enclosing scope is known. -/
def finishScope (s : Scope) : Scope :=
  if s.error = .none ∧ s.pos ≠ s.len then { s with error := .trailingData } else s

/-- The error of a scope is passed to the enclosing one. -/
def Scope.pass (s : Scope) (error : PacketError) : Scope :=
  if error ≠ .none ∧ s.error = .none then { s with error := error } else s

def Thread.call (t : Thread) : Call → Option (Thread × Answer)
  | .scopeBegin =>
    some ({ t with
      scopes := Function.update t.scopes t.count { previous := t.active }
      count := t.count+1
      active := some t.count }, .nothing)
  | .init r address data pos =>
    let made := scopedInitAt (t.scope t.active) address data pos
    let bound := if made.2.isSome then t.active else none
    let t := t.setScope bound made.2
    some ({ t with readers := Function.update t.readers r (some ⟨made.1, address, bound⟩) }, .nothing)
  | .operate r operation =>
    match t.readers r with
    | none => none
    | some b =>
      if operation = .setError .none then none
      else
        let result := operation.scoped (b.reader, t.scope b.scope)
        let t := t.setScope b.scope result.2.2
        some ({ t with
          readers := Function.update t.readers r (some { b with reader := result.2.1 }) },
          .value result.1.1 result.1.2)
  | .scopeFinish =>
    match t.active with
    | none => none
    | some i =>
      let s := finishScope (t.scopes i)
      let t := t.setScope (some i) (some s)
      let t := t.setScope s.previous ((t.scope s.previous).map fun previous => previous.pass s.error)
      some ({ t with active := s.previous }, .finished s.error)

def Thread.run (t : Thread) : List Call → Option (Thread × List Answer)
  | [] => some (t, [])
  | call :: calls => do
    let (t, answer) ← t.call call
    let (t, answers) ← t.run calls
    return (t, answer :: answers)

end Code

section Purpose

/-- What has happened in a scope: the data of its first reader and where that started, how far its
readers have read, and the errors of its readers and of the scopes inside, the first one first. -/
structure Notes where
  buffer : Option (Option ℕ × ℕ × ℕ) := none
  reads : List ℕ := []
  errors : List PacketError := []

/-- What a scope is to report. -/
def Notes.verdict (n : Notes) : PacketError :=
  match n.errors with
  | error :: _ => error
  | [] =>
    match n.buffer with
    | none => .none
    | some (_, len, start) => if n.reads.foldl max start = len then .none else .trailingData

/-- Readers of data are bound to a scope that has seen no data or this. -/
def Notes.binds (n : Notes) (address : Option ℕ) (len : ℕ) : Prop :=
  ∀ b ∈ n.buffer, b.1 = address ∧ b.2.1 = len

instance (n : Notes) (address : Option ℕ) (len : ℕ) : Decidable (n.binds address len) :=
  inferInstanceAs (Decidable (∀ b ∈ n.buffer, b.1 = address ∧ b.2.1 = len))

def Notes.addError (n : Notes) (error : PacketError) : Notes :=
  if error = .none then n else { n with errors := n.errors ++ [error] }

/-- A reader of the scope has changed. A read of nothing reaches nothing. -/
def Notes.observe (n : Notes) (reader reader' : PacketReader) : Notes :=
  let n := if reader'.pos = reader.pos then n else { n with reads := n.reads ++ [reader'.pos] }
  if reader.error = .none then n.addError reader'.error else n

def Notes.bind (n : Notes) (address : Option ℕ) (len pos : ℕ) : Notes :=
  match n.buffer with
  | none => { n with buffer := some (address, len, pos) }
  | some _ => n

/-- The reader that is made without any scope. -/
def plainInitAt (address : Option ℕ) (data : List UInt8) (pos : ℕ) : PacketReader :=
  (scopedInitAt none address data pos).1

/-- A thread whose scopes are a stack of notes. -/
structure Watch where
  notes : ℕ → Notes
  count : ℕ
  stack : List ℕ
  readers : ℕ → Option BoundReader

def Watch.init : Watch := ⟨fun _ => {}, 0, [], fun _ => none⟩

def Watch.note (w : Watch) (i : Option ℕ) (f : Notes → Notes) : Watch :=
  match i with
  | some i => { w with notes := Function.update w.notes i (f (w.notes i)) }
  | none => w

/-- The scope that a new reader is bound to. -/
def Watch.bound (w : Watch) (address : Option ℕ) (len : ℕ) : Option ℕ :=
  match w.stack with
  | [] => none
  | i :: _ => if (w.notes i).binds address len then some i else none

def Watch.call (w : Watch) : Call → Option (Watch × Answer)
  | .scopeBegin =>
    some ({ w with
      notes := Function.update w.notes w.count {}
      count := w.count+1
      stack := w.count :: w.stack }, .nothing)
  | .init r address data pos =>
    let reader := plainInitAt address data pos
    let bound := w.bound address data.length
    let w := w.note bound fun n => (n.bind address data.length pos).addError reader.error
    some ({ w with readers := Function.update w.readers r (some ⟨reader, address, bound⟩) }, .nothing)
  | .operate r operation =>
    match w.readers r with
    | none => none
    | some b =>
      if operation = .setError .none then none
      else
        let result := operation.run b.reader
        let w := w.note b.scope fun n => n.observe b.reader result.2
        some ({ w with
          readers := Function.update w.readers r (some { b with reader := result.2 }) },
          .value result.1.1 result.1.2)
  | .scopeFinish =>
    match w.stack with
    | [] => none
    | i :: rest =>
      let error := (w.notes i).verdict
      let w := w.note rest.head? fun n => n.addError error
      some ({ w with stack := rest }, .finished error)

def Watch.run (w : Watch) : List Call → Option (Watch × List Answer)
  | [] => some (w, [])
  | call :: calls => do
    let (w, answer) ← w.call call
    let (w, answers) ← w.run calls
    return (w, answer :: answers)

end Purpose

section Relation

/-- A scope holds what has been noted of it. -/
structure Agrees (s : Scope) (n : Notes) : Prop where
  error : s.error = n.errors.headD .none
  real : ∀ error ∈ n.errors, error ≠ .none
  unbound : n.buffer = none → s.initialized = false ∧ s.pos = 0 ∧ s.len = 0 ∧ n.reads = []
  bound : ∀ address len start, n.buffer = some (address, len, start) →
    s.initialized = true ∧ s.data = address ∧ s.len = len ∧ s.pos = n.reads.foldl max start

/-- The links between the scopes that are open. -/
def Linked (scopes : ℕ → Scope) : List ℕ → Prop
  | [] => True
  | i :: rest => (scopes i).previous = rest.head? ∧ Linked scopes rest

/-- A reader is bound to a scope that has seen its data, and that knows of its error. -/
def BoundTo (notes : ℕ → Notes) (b : BoundReader) : Prop :=
  ∀ i ∈ b.scope, (notes i).buffer ≠ none ∧ (b.reader.error ≠ .none → (notes i).errors ≠ [])

structure Matches (t : Thread) (w : Watch) : Prop where
  count : t.count = w.count
  readers : t.readers = w.readers
  active : t.active = w.stack.head?
  linked : Linked t.scopes w.stack
  nodup : w.stack.Nodup
  small : ∀ i ∈ w.stack, i < w.count
  agrees : ∀ i ∈ w.stack, Agrees (t.scopes i) (w.notes i)
  known : ∀ r b, w.readers r = some b → ∀ i ∈ b.scope, i < w.count
  boundTo : ∀ r b, w.readers r = some b → BoundTo w.notes b

end Relation

section Scopes

variable {s : Scope} {n : Notes}

theorem Agrees.error_none (h : Agrees s n) : s.error = .none ↔ n.errors = [] := by
  rw [h.error]
  cases herrors : n.errors with
  | nil => exact ⟨fun _ => rfl, fun _ => rfl⟩
  | cons error errors =>
    constructor
    · intro hnone
      exact absurd hnone (h.real error (by rw [herrors]; exact List.mem_cons_self))
    · intro hnil
      cases hnil

/-- The first error stays, in the scope and in the notes. -/
theorem Agrees.fail (h : Agrees s n) (error : PacketError) :
    Agrees (s.fail error) (n.addError error) := by
  unfold Scope.fail Notes.addError
  by_cases hnone : error = .none
  · rw [if_pos hnone, hnone]
    by_cases hs : s.error = .none
    · rw [if_pos hs, ← hs]
      exact h
    · rw [if_neg hs]
      exact h
  rw [if_neg hnone]
  have hreal : ∀ e ∈ n.errors ++ [error], e ≠ .none := by
    intro e hmem
    rcases List.mem_append.mp hmem with hold | hnew
    · exact h.real e hold
    · rw [List.mem_singleton.mp hnew]
      exact hnone
  by_cases hs : s.error = .none
  · rw [if_pos hs]
    refine ⟨?_, hreal, h.unbound, h.bound⟩
    dsimp only
    rw [h.error_none.mp hs]
    rfl
  · rw [if_neg hs]
    refine ⟨?_, hreal, h.unbound, h.bound⟩
    have herrors : n.errors ≠ [] := fun hnil => hs (h.error_none.mpr hnil)
    rw [h.error]
    cases hlist : n.errors with
    | nil => exact absurd hlist herrors
    | cons first rest => rfl

/-- A scope that follows a reader holds what has been noted of the reader. -/
theorem Agrees.follow (h : Agrees s n) (reader reader' : PacketReader) (hbuffer : n.buffer ≠ none)
    (hknows : reader.error ≠ .none → n.errors ≠ []) :
    Agrees (s.follow reader reader') (n.observe reader reader') := by
  -- first the position, then the error
  have hread : Agrees { s with pos := if reader'.pos = reader.pos then s.pos else max s.pos reader'.pos }
      (if reader'.pos = reader.pos then n else { n with reads := n.reads ++ [reader'.pos] }) := by
    by_cases hpos : reader'.pos = reader.pos
    · rw [if_pos hpos, if_pos hpos]
      exact h
    rw [if_neg hpos, if_neg hpos]
    refine ⟨h.error, h.real, fun hnone => absurd hnone hbuffer, ?_⟩
    intro address len start hsome
    obtain ⟨hinit, hdata, hlen, hstart⟩ := h.bound address len start hsome
    refine ⟨hinit, hdata, hlen, ?_⟩
    dsimp only
    rw [List.foldl_append, hstart]
    rfl
  unfold Notes.observe
  dsimp only
  by_cases herror : reader.error = .none
  · rw [if_pos herror]
    have hfail := hread.fail reader'.error
    have hsame : s.follow reader reader' =
        Scope.fail { s with pos := if reader'.pos = reader.pos then s.pos else max s.pos reader'.pos }
          reader'.error := by
      unfold Scope.follow Scope.fail
      dsimp only
      split_ifs <;> rfl
    rw [hsame]
    exact hfail
  · rw [if_neg herror]
    have hs : s.error ≠ .none := fun hnone => hknows herror (h.error_none.mp hnone)
    have hsame : s.follow reader reader' =
        { s with pos := if reader'.pos = reader.pos then s.pos else max s.pos reader'.pos } := by
      unfold Scope.follow
      rw [if_neg hs]
    rw [hsame]
    exact hread

theorem Agrees.foreign_iff (h : Agrees s n) (address : Option ℕ) (len : ℕ) :
    s.foreign address len ↔ ¬ n.binds address len := by
  unfold Scope.foreign Notes.binds
  cases hbuffer : n.buffer with
  | none =>
    obtain ⟨hinit, _⟩ := h.unbound hbuffer
    rw [hinit]
    constructor
    · intro hforeign
      cases hforeign.1
    · intro hbinds
      exact absurd (fun b hb => by cases hb) hbinds
  | some b =>
    obtain ⟨hinit, hdata, hlen, _⟩ := h.bound b.1 b.2.1 b.2.2 hbuffer
    rw [hinit, hdata, hlen]
    constructor
    · intro hforeign hbinds
      obtain ⟨haddress, hlength⟩ := hbinds b rfl
      rcases hforeign.2 with hne | hne
      · exact hne haddress
      · exact hne hlength
    · intro hbinds
      refine ⟨rfl, ?_⟩
      by_contra hsame
      rw [not_or, not_not, not_not] at hsame
      apply hbinds
      intro b' hb'
      rw [← Option.some.inj hb']
      exact hsame

theorem Agrees.bind (h : Agrees s n) (address : Option ℕ) (len pos : ℕ) :
    Agrees (s.bind address len pos) (n.bind address len pos) := by
  unfold Scope.bind Notes.bind
  cases hbuffer : n.buffer with
  | none =>
    obtain ⟨hinit, _, _, hreads⟩ := h.unbound hbuffer
    rw [if_pos hinit]
    refine ⟨h.error, h.real, fun hnone => (by cases hnone), ?_⟩
    intro address' len' start hsome
    cases hsome
    refine ⟨rfl, rfl, rfl, ?_⟩
    dsimp only
    rw [hreads]
    rfl
  | some b =>
    obtain ⟨hinit, _⟩ := h.bound b.1 b.2.1 b.2.2 hbuffer
    rw [if_neg (by rw [hinit]; decide)]
    exact h

theorem Agrees.verdict (h : Agrees s n) : (finishScope s).error = n.verdict := by
  unfold finishScope Notes.verdict
  cases herrors : n.errors with
  | cons error errors =>
    have hne : s.error ≠ .none := by
      intro hnone
      rw [h.error_none.mp hnone] at herrors
      cases herrors
    rw [if_neg fun hboth => hne hboth.1, h.error, herrors]
    rfl
  | nil =>
    have hnone := h.error_none.mpr herrors
    cases hbuffer : n.buffer with
    | none =>
      obtain ⟨_, hpos, hlen, _⟩ := h.unbound hbuffer
      rw [if_neg (by rw [hpos, hlen]; exact fun hboth => hboth.2 rfl)]
      exact hnone
    | some b =>
      obtain ⟨_, _, hlen, hpos⟩ := h.bound b.1 b.2.1 b.2.2 hbuffer
      dsimp only
      by_cases hend : n.reads.foldl max b.2.2 = b.2.1
      · rw [if_pos hend, if_neg (by rw [hpos, hlen]; exact fun hboth => hboth.2 hend)]
        exact hnone
      · rw [if_neg hend, if_pos (by rw [hpos, hlen]; exact ⟨hnone, hend⟩)]

theorem Agrees.pass (h : Agrees s n) (error : PacketError) :
    Agrees (s.pass error) (n.addError error) := by
  have hfail := h.fail error
  have hsame : s.pass error = s.fail error := by
    unfold Scope.pass Scope.fail
    by_cases hs : s.error = .none
    · by_cases hnone : error = .none
      · rw [if_neg fun hboth => hboth.1 hnone, if_pos hs, hnone, ← hs]
      · rw [if_pos ⟨hnone, hs⟩, if_pos hs]
    · rw [if_neg fun hboth => hs hboth.2, if_neg hs]
  rw [hsame]
  exact hfail

theorem bind_previous (s : Scope) (address : Option ℕ) (len pos : ℕ) :
    (s.bind address len pos).previous = s.previous := by
  unfold Scope.bind
  split <;> rfl

theorem fail_previous (s : Scope) (error : PacketError) : (s.fail error).previous = s.previous := by
  unfold Scope.fail
  split <;> rfl

theorem pass_previous (s : Scope) (error : PacketError) : (s.pass error).previous = s.previous := by
  unfold Scope.pass
  split <;> rfl

theorem finishScope_previous (s : Scope) : (finishScope s).previous = s.previous := by
  unfold finishScope
  split <;> rfl

end Scopes

section Threads

variable {t : Thread} {w : Watch}

theorem linked_update (scopes : ℕ → Scope) (i : ℕ) (s : Scope)
    (hs : s.previous = (scopes i).previous) (stack : List ℕ) (h : Linked scopes stack) :
    Linked (Function.update scopes i s) stack := by
  induction stack with
  | nil => trivial
  | cons k rest ih =>
    refine ⟨?_, ih h.2⟩
    by_cases hk : k = i
    · rw [hk, Function.update_self, hs, ← hk]
      exact h.1
    · rw [Function.update_of_ne hk]
      exact h.1

theorem linked_fresh (scopes : ℕ → Scope) (i : ℕ) (s : Scope) (stack : List ℕ) (hi : i ∉ stack)
    (h : Linked scopes stack) : Linked (Function.update scopes i s) stack := by
  induction stack with
  | nil => trivial
  | cons k rest ih =>
    have hk : k ≠ i := fun heq => hi (heq ▸ List.mem_cons_self)
    refine ⟨?_, ih (fun hin => hi (List.mem_cons_of_mem _ hin)) h.2⟩
    rw [Function.update_of_ne hk]
    exact h.1

theorem setScope_other (i : ℕ) (scope : Option Scope) (j : ℕ) (hj : j ≠ i) :
    (t.setScope (some i) scope).scopes j = t.scopes j := by
  cases scope with
  | none => rfl
  | some s => exact Function.update_of_ne hj s t.scopes

theorem setScope_self (i : ℕ) (s : Scope) : (t.setScope (some i) (some s)).scopes i = s :=
  show Function.update t.scopes i s i = s from Function.update_self i s t.scopes

theorem linked_setScope (i : ℕ) (scope : Option Scope) (stack : List ℕ)
    (hscope : i ∈ stack → ∃ s, scope = some s ∧ s.previous = (t.scopes i).previous)
    (h : Linked t.scopes stack) : Linked (t.setScope (some i) scope).scopes stack := by
  cases scope with
  | none => exact h
  | some s =>
    by_cases hi : i ∈ stack
    · obtain ⟨s', hs', hprevious⟩ := hscope hi
      rw [← Option.some.inj hs'] at hprevious
      exact linked_update t.scopes i s hprevious stack h
    · exact linked_fresh t.scopes i s stack hi h

theorem setScope_rest (i : Option ℕ) (scope : Option Scope) :
    (t.setScope i scope).count = t.count ∧ (t.setScope i scope).active = t.active ∧
      (t.setScope i scope).readers = t.readers := by
  cases i with
  | none => exact ⟨rfl, rfl, rfl⟩
  | some i => cases scope <;> exact ⟨rfl, rfl, rfl⟩

/-- A scope is changed, and what has been noted of it. -/
theorem Matches.setScope (h : Matches t w) (i : Option ℕ) (scope : Option Scope) (f : Notes → Notes)
    (hscope : ∀ k ∈ i, k ∈ w.stack → ∃ s, scope = some s ∧
      s.previous = (t.scopes k).previous ∧ Agrees s (f (w.notes k)))
    (hbuffer : ∀ n, n.buffer ≠ none → (f n).buffer ≠ none)
    (herrors : ∀ n, n.errors ≠ [] → (f n).errors ≠ []) :
    Matches (t.setScope i scope) (w.note i f) := by
  cases i with
  | none => exact h
  | some k =>
    obtain ⟨hcount, hactive, hreaders⟩ := setScope_rest (t := t) (some k) scope
    refine ⟨hcount.trans h.count, hreaders.trans h.readers, hactive.trans h.active, ?_, h.nodup,
      h.small, ?_, h.known, ?_⟩
    · apply linked_setScope k scope w.stack ?_ h.linked
      intro hk
      obtain ⟨s, hs, hprevious, _⟩ := hscope k rfl hk
      exact ⟨s, hs, hprevious⟩
    · intro j hj
      change Agrees _ (Function.update w.notes k (f (w.notes k)) j)
      by_cases heq : j = k
      · obtain ⟨s, hs, _, hagrees⟩ := hscope k rfl (heq ▸ hj)
        rw [heq, hs, setScope_self, Function.update_self]
        exact hagrees
      · rw [setScope_other k scope j heq, Function.update_of_ne heq]
        exact h.agrees j hj
    · intro r b hr j hj
      obtain ⟨hbound, hknows⟩ := h.boundTo r b hr j hj
      change (Function.update w.notes k (f (w.notes k)) j).buffer ≠ none ∧
        (b.reader.error ≠ .none → (Function.update w.notes k (f (w.notes k)) j).errors ≠ [])
      by_cases heq : j = k
      · rw [heq, Function.update_self]
        rw [heq] at hbound hknows
        exact ⟨hbuffer _ hbound, fun herror => herrors _ (hknows herror)⟩
      · rw [Function.update_of_ne heq]
        exact ⟨hbound, hknows⟩

/-- A reader is made or changed. -/
theorem Matches.setReader (h : Matches t w) (r : ℕ) (b : BoundReader)
    (hsmall : ∀ i ∈ b.scope, i < w.count) (hbound : BoundTo w.notes b) :
    Matches { t with readers := Function.update t.readers r (some b) }
      { w with readers := Function.update w.readers r (some b) } := by
  refine ⟨h.count, ?_, h.active, h.linked, h.nodup, h.small, h.agrees, ?_, ?_⟩
  · change Function.update t.readers r (some b) = Function.update w.readers r (some b)
    rw [h.readers]
  · intro r' b' hr'
    by_cases heq : r' = r
    · rw [heq] at hr'
      change Function.update w.readers r (some b) r = some b' at hr'
      rw [Function.update_self] at hr'
      rw [← Option.some.inj hr']
      exact hsmall
    · change Function.update w.readers r (some b) r' = some b' at hr'
      rw [Function.update_of_ne heq] at hr'
      exact h.known r' b' hr'
  · intro r' b' hr'
    by_cases heq : r' = r
    · rw [heq] at hr'
      change Function.update w.readers r (some b) r = some b' at hr'
      rw [Function.update_self] at hr'
      rw [← Option.some.inj hr']
      exact hbound
    · change Function.update w.readers r (some b) r' = some b' at hr'
      rw [Function.update_of_ne heq] at hr'
      exact h.boundTo r' b' hr'

theorem matches_init : Matches .init .init :=
  ⟨rfl, rfl, rfl, trivial, List.nodup_nil, fun _ hi => absurd hi List.not_mem_nil,
    fun _ hi => absurd hi List.not_mem_nil, fun _ _ hr => (by cases hr), fun _ _ hr => (by cases hr)⟩

theorem addError_buffer (n : Notes) (error : PacketError) : (n.addError error).buffer = n.buffer := by
  unfold Notes.addError
  split <;> rfl

theorem addError_errors (n : Notes) (error : PacketError)
    (h : n.errors ≠ [] ∨ error ≠ .none) : (n.addError error).errors ≠ [] := by
  unfold Notes.addError
  by_cases hnone : error = .none
  · rw [if_pos hnone]
    exact h.resolve_right (not_not.mpr hnone)
  · rw [if_neg hnone]
    exact List.append_ne_nil_of_right_ne_nil _ (List.cons_ne_nil _ _)

theorem bind_buffer (n : Notes) (address : Option ℕ) (len pos : ℕ) :
    (n.bind address len pos).buffer ≠ none ∧ (n.bind address len pos).errors = n.errors := by
  unfold Notes.bind
  cases hbuffer : n.buffer with
  | none => exact ⟨Option.some_ne_none _, rfl⟩
  | some b => exact ⟨by rw [hbuffer]; exact Option.some_ne_none b, rfl⟩

theorem observe_buffer (n : Notes) (reader reader' : PacketReader) :
    (n.observe reader reader').buffer = n.buffer := by
  have hsame : (if reader'.pos = reader.pos then n
      else { n with reads := n.reads ++ [reader'.pos] }).buffer = n.buffer := by
    split_ifs <;> rfl
  unfold Notes.observe
  dsimp only
  by_cases herror : reader.error = .none
  · rw [if_pos herror, addError_buffer, hsame]
  · rw [if_neg herror, hsame]

theorem observe_errors (n : Notes) (reader reader' : PacketReader)
    (h : n.errors ≠ [] ∨ (reader.error = .none ∧ reader'.error ≠ .none)) :
    (n.observe reader reader').errors ≠ [] := by
  unfold Notes.observe
  dsimp only
  have hsame : (if reader'.pos = reader.pos then n
      else { n with reads := n.reads ++ [reader'.pos] }).errors = n.errors := by
    split_ifs <;> rfl
  by_cases herror : reader.error = .none
  · rw [if_pos herror]
    apply addError_errors
    rw [hsame]
    rcases h with hold | hnew
    · exact Or.inl hold
    · exact Or.inr hnew.2
  · rw [if_neg herror, hsame]
    rcases h with hold | hnew
    · exact hold
    · exact absurd hnew.1 herror

/-- A reader that is made does not depend on the scope, and the scope holds what is noted of it. -/
theorem scopedInitAt_bound {s : Scope} {n : Notes} (h : Agrees s n) (address : Option ℕ)
    (data : List UInt8) (pos : ℕ) (hbinds : n.binds address data.length) :
    ∃ s', scopedInitAt (some s) address data pos = (plainInitAt address data pos, some s') ∧
      s'.previous = s.previous ∧
      Agrees s' ((n.bind address data.length pos).addError (plainInitAt address data pos).error) := by
  have hforeign : ¬ s.foreign address data.length := fun hf =>
    (h.foreign_iff address data.length).mp hf hbinds
  have hbound := h.bind address data.length pos
  unfold plainInitAt scopedInitAt
  dsimp only
  rw [if_neg hforeign]
  by_cases hinvalid : invalidAt address data pos
  · rw [if_pos hinvalid, if_pos hinvalid]
    refine ⟨_, rfl, ?_, hbound.fail .invalidEncoding⟩
    rw [fail_previous, bind_previous]
  · rw [if_neg hinvalid, if_neg hinvalid]
    exact ⟨_, rfl, bind_previous s address data.length pos, hbound⟩

theorem scopedInitAt_free (scope : Option Scope) (address : Option ℕ) (data : List UInt8) (pos : ℕ)
    (hfree : ∀ s ∈ scope, s.foreign address data.length) :
    scopedInitAt scope address data pos = (plainInitAt address data pos, none) := by
  have hnone : (match scope with
      | some s => if s.foreign address data.length then none else some s
      | none => none) = none := by
    cases scope with
    | none => rfl
    | some s => exact if_pos (hfree s rfl)
  unfold plainInitAt scopedInitAt
  rw [hnone]
  dsimp only
  split_ifs <;> rfl

/-- The scope that a reader is bound to is open, and has seen the data of the reader. -/
theorem bound_spec {address : Option ℕ} {len i : ℕ} (h : w.bound address len = some i) :
    i ∈ w.stack ∧ w.stack.head? = some i ∧ (w.notes i).binds address len := by
  unfold Watch.bound at h
  cases hstack : w.stack with
  | nil =>
    rw [hstack] at h
    cases h
  | cons k rest =>
    rw [hstack] at h
    dsimp only at h
    by_cases hbinds : (w.notes k).binds address len
    · rw [if_pos hbinds] at h
      cases h
      exact ⟨List.mem_cons_self, rfl, hbinds⟩
    · rw [if_neg hbinds] at h
      cases h

/-- The active scope is bound to other data when a new reader is bound to no scope. -/
theorem Matches.unbound (h : Matches t w) {address : Option ℕ} {len : ℕ}
    (hbound : w.bound address len = none) : ∀ s ∈ t.scope t.active, s.foreign address len := by
  intro s hs
  rw [h.active] at hs
  unfold Watch.bound at hbound
  cases hstack : w.stack with
  | nil =>
    rw [hstack] at hs
    cases hs
  | cons i rest =>
    rw [hstack] at hs hbound
    dsimp only at hbound
    have hs : t.scopes i = s := Option.some.inj hs
    rw [← hs]
    apply ((h.agrees i (by rw [hstack]; exact List.mem_cons_self)).foreign_iff address len).mpr
    intro hbinds
    rw [if_pos hbinds] at hbound
    cases hbound

end Threads

section Calls

variable {t : Thread} {w : Watch}

theorem scopeBegin_matches (h : Matches t w) :
    ∃ t' w', t.call .scopeBegin = some (t', .nothing) ∧ w.call .scopeBegin = some (w', .nothing) ∧
      Matches t' w' := by
  refine ⟨_, _, rfl, rfl, ?_⟩
  have hfresh : w.count ∉ w.stack := fun hin => Nat.lt_irrefl _ (h.small w.count hin)
  rw [h.count]
  refine ⟨rfl, h.readers, rfl, ⟨?_, ?_⟩, List.nodup_cons.mpr ⟨hfresh, h.nodup⟩, ?_, ?_, ?_, ?_⟩
  · dsimp only
    rw [Function.update_self]
    exact h.active
  · exact linked_fresh t.scopes w.count _ w.stack hfresh h.linked
  · intro i hi
    rcases List.mem_cons.mp hi with heq | hin
    · rw [heq]
      exact Nat.lt_succ_self _
    · exact Nat.lt_succ_of_lt (h.small i hin)
  · intro i hi
    dsimp only
    by_cases heq : i = w.count
    · rw [heq, Function.update_self, Function.update_self]
      exact ⟨rfl, fun _ hmem => absurd hmem List.not_mem_nil, fun _ => ⟨rfl, rfl, rfl, rfl⟩,
        fun _ _ _ hsome => (by cases hsome)⟩
    · rw [Function.update_of_ne heq, Function.update_of_ne heq]
      exact h.agrees i ((List.mem_cons.mp hi).resolve_left heq)
  · intro r b hr i hi
    exact Nat.lt_succ_of_lt (h.known r b hr i hi)
  · intro r b hr i hi
    have hne : i ≠ w.count := fun heq => Nat.lt_irrefl _ (heq ▸ h.known r b hr i hi)
    dsimp only
    rw [Function.update_of_ne hne]
    exact h.boundTo r b hr i hi

theorem init_matches (h : Matches t w) (r : ℕ) (address : Option ℕ) (data : List UInt8) (pos : ℕ) :
    ∃ t' w', t.call (.init r address data pos) = some (t', .nothing) ∧
      w.call (.init r address data pos) = some (w', .nothing) ∧ Matches t' w' := by
  refine ⟨_, _, rfl, rfl, ?_⟩
  have hreader : (scopedInitAt (t.scope t.active) address data pos).1 = plainInitAt address data pos := by
    unfold plainInitAt scopedInitAt
    split_ifs <;> rfl
  rw [hreader]
  cases hbound : w.bound address data.length with
  | none =>
    rw [scopedInitAt_free _ address data pos (h.unbound hbound)]
    exact h.setReader r ⟨plainInitAt address data pos, address, none⟩ (fun _ hk => (by cases hk))
      (fun _ hk => (by cases hk))
  | some i =>
    obtain ⟨hi, hhead, hbinds⟩ := bound_spec hbound
    have hactive : t.active = some i := h.active.trans hhead
    obtain ⟨s', hmade, hprevious, hagrees⟩ :=
      scopedInitAt_bound (h.agrees i hi) address data pos hbinds
    have hmade' : scopedInitAt (t.scope t.active) address data pos =
        (plainInitAt address data pos, some s') := by
      rw [hactive]
      exact hmade
    rw [hmade', hactive]
    have hnotes : ∀ n : Notes, ((n.bind address data.length pos).addError
        (plainInitAt address data pos).error).buffer ≠ none := by
      intro n
      rw [addError_buffer]
      exact (bind_buffer n address data.length pos).1
    apply Matches.setReader
    · apply h.setScope
      · intro k hk _
        rw [← Option.some.inj hk]
        exact ⟨s', rfl, hprevious, hagrees⟩
      · intro n _
        exact hnotes n
      · intro n hne
        apply addError_errors
        rw [(bind_buffer n address data.length pos).2]
        exact Or.inl hne
    · intro k hk
      rw [← Option.some.inj hk]
      exact h.small i hi
    · intro k hk
      rw [← Option.some.inj hk]
      change (Function.update w.notes i _ i).buffer ≠ none ∧
        (_ → (Function.update w.notes i _ i).errors ≠ [])
      rw [Function.update_self]
      exact ⟨hnotes _, fun herror => addError_errors _ _ (Or.inr herror)⟩

theorem operate_matches (h : Matches t w) (r : ℕ) (operation : Operation) :
    (t.call (.operate r operation) = none ∧ w.call (.operate r operation) = none) ∨
    ∃ t' w' answer, t.call (.operate r operation) = some (t', answer) ∧
      w.call (.operate r operation) = some (w', answer) ∧ Matches t' w' := by
  unfold Thread.call Watch.call
  dsimp only
  rw [h.readers]
  cases hr : w.readers r with
  | none => exact Or.inl ⟨rfl, rfl⟩
  | some b =>
    dsimp only
    by_cases hnone : operation = .setError .none
    · rw [if_pos hnone, if_pos hnone]
      exact Or.inl ⟨rfl, rfl⟩
    rw [if_neg hnone, if_neg hnone]
    have hfollows := follows_operation operation
    obtain ⟨hvalue, hreader⟩ := hfollows.erase (b.reader, t.scope b.scope)
    have hrun : operation.run b.reader = ((operation.scoped (b.reader, t.scope b.scope)).1,
        (operation.scoped (b.reader, t.scope b.scope)).2.1) := by
      rw [hvalue, hreader]
      rfl
    rw [hrun]
    refine Or.inr ⟨_, _, _, rfl, rfl, ?_⟩
    dsimp only
    generalize hresult : operation.scoped (b.reader, t.scope b.scope) = result at *
    have hboundTo := h.boundTo r b hr
    apply Matches.setReader
    · apply h.setScope
      · intro k hk hin
        obtain ⟨hbuffer, hknows⟩ := hboundTo k hk
        have hscope : t.scope b.scope = some (t.scopes k) := by
          rw [hk]
          rfl
        have hagrees := h.agrees k hin
        have hknown : Knows (t.scope b.scope) b.reader := by
          intro s hs herror hempty
          rw [hscope] at hs
          rw [← Option.some.inj hs] at hempty
          exact hknows herror (hagrees.error_none.mp hempty)
        have hfollow := hfollows.scope (b.reader, t.scope b.scope) hknown
        rw [hresult] at hfollow
        refine ⟨(t.scopes k).follow b.reader result.2.1, ?_, rfl, ?_⟩
        · rw [hfollow]
          dsimp only
          rw [hscope]
          rfl
        · exact hagrees.follow b.reader result.2.1 hbuffer hknows
      · intro n hn
        rw [observe_buffer]
        exact hn
      · intro n hn
        exact observe_errors n _ _ (Or.inl hn)
    · intro k hk
      exact lt_of_lt_of_eq (h.known r b hr k hk) (by cases b.scope <;> rfl)
    · intro k hk
      have hk : k ∈ b.scope := hk
      obtain ⟨hbuffer, hknows⟩ := hboundTo k hk
      have hnote : (w.note b.scope fun n => n.observe b.reader result.2.1).notes k =
          (w.notes k).observe b.reader result.2.1 := by
        rw [hk]
        exact Function.update_self _ _ _
      rw [hnote, observe_buffer]
      refine ⟨hbuffer, fun herror => observe_errors _ _ _ ?_⟩
      by_cases hold : b.reader.error = .none
      · exact Or.inr ⟨hold, herror⟩
      · exact Or.inl (hknows hold)

/-- A scope that is not open may be changed. -/
theorem Matches.setClosed (h : Matches t w) (i : ℕ) (s : Scope) (hi : i ∉ w.stack) :
    Matches (t.setScope (some i) (some s)) w := by
  refine ⟨h.count, h.readers, h.active, linked_fresh t.scopes i s w.stack hi h.linked, h.nodup,
    h.small, ?_, h.known, h.boundTo⟩
  intro j hj
  have hne : j ≠ i := fun heq => hi (heq ▸ hj)
  rw [setScope_other i (some s) j hne]
  exact h.agrees j hj

theorem scopeFinish_matches (h : Matches t w) :
    (t.call .scopeFinish = none ∧ w.call .scopeFinish = none) ∨
    ∃ t' w' answer, t.call .scopeFinish = some (t', answer) ∧
      w.call .scopeFinish = some (w', answer) ∧ Matches t' w' := by
  cases hstack : w.stack with
  | nil =>
    have hactive : t.active = none := by
      rw [h.active, hstack]
      rfl
    refine Or.inl ⟨?_, ?_⟩
    · unfold Thread.call
      rw [hactive]
    · unfold Watch.call
      rw [hstack]
  | cons i rest =>
    have hi : i ∈ w.stack := by
      rw [hstack]
      exact List.mem_cons_self
    have hactive : t.active = some i := by
      rw [h.active, hstack]
      rfl
    have hlinked := h.linked
    have hnodup := h.nodup
    rw [hstack] at hlinked hnodup
    have hprevious : (finishScope (t.scopes i)).previous = rest.head? :=
      (finishScope_previous _).trans hlinked.1
    have hverdict := (h.agrees i hi).verdict
    obtain ⟨hfresh, hnodup'⟩ := List.nodup_cons.mp hnodup
    -- the scope is taken from the stack and then changed
    have hpopped : Matches { t with active := rest.head? } { w with stack := rest } := by
      refine ⟨h.count, h.readers, rfl, hlinked.2, hnodup', ?_, ?_, h.known, h.boundTo⟩
      · intro j hj
        exact h.small j (by rw [hstack]; exact List.mem_cons_of_mem i hj)
      · intro j hj
        exact h.agrees j (by rw [hstack]; exact List.mem_cons_of_mem i hj)
    have hclosed := hpopped.setClosed i (finishScope (t.scopes i)) hfresh
    have hpassed := hclosed.setScope rest.head?
      ((Thread.scope (Thread.setScope { t with active := rest.head? } (some i)
        (some (finishScope (t.scopes i)))) rest.head?).map fun previous =>
          previous.pass (finishScope (t.scopes i)).error)
      (fun n => n.addError (finishScope (t.scopes i)).error) (by
        intro k hk hin
        rw [hk]
        refine ⟨_, rfl, ?_, ?_⟩
        · exact pass_previous _ _
        · exact (hclosed.agrees k hin).pass _) (by
        intro n hn
        rw [addError_buffer]
        exact hn) fun n hn => addError_errors n _ (Or.inl hn)
    refine Or.inr ⟨_, _, .finished (finishScope (t.scopes i)).error, ?_, ?_, hpassed⟩
    · unfold Thread.call
      rw [hactive]
      dsimp only
      rw [hprevious]
      cases rest <;> rfl
    · unfold Watch.call
      rw [hstack]
      dsimp only
      rw [hverdict]
      cases rest <;> rfl

/-- Each call does the same with the scopes and with the notes. -/
theorem call_matches (h : Matches t w) (call : Call) :
    (t.call call = none ∧ w.call call = none) ∨
    ∃ t' w' answer, t.call call = some (t', answer) ∧ w.call call = some (w', answer) ∧
      Matches t' w' := by
  cases call with
  | scopeBegin =>
    obtain ⟨t', w', hcall, hcall', h'⟩ := scopeBegin_matches h
    exact Or.inr ⟨t', w', .nothing, hcall, hcall', h'⟩
  | init r address data pos =>
    obtain ⟨t', w', hcall, hcall', h'⟩ := init_matches h r address data pos
    exact Or.inr ⟨t', w', .nothing, hcall, hcall', h'⟩
  | operate r operation => exact operate_matches h r operation
  | scopeFinish => exact scopeFinish_matches h

theorem run_matches (calls : List Call) (h : Matches t w) :
    (t.run calls = none ∧ w.run calls = none) ∨
    ∃ t' w' answers, t.run calls = some (t', answers) ∧ w.run calls = some (w', answers) ∧
      Matches t' w' := by
  induction calls generalizing t w with
  | nil => exact Or.inr ⟨t, w, [], rfl, rfl, h⟩
  | cons call calls ih =>
    unfold Thread.run Watch.run
    rcases call_matches h call with ⟨hnone, hnone'⟩ | ⟨t₁, w₁, answer, hcall, hcall', h₁⟩
    · rw [hnone, hnone']
      exact Or.inl ⟨rfl, rfl⟩
    · rw [hcall, hcall']
      rcases ih h₁ with ⟨hnone, hnone'⟩ | ⟨t₂, w₂, answers, hrun, hrun', h₂⟩
      · refine Or.inl ⟨?_, ?_⟩
        · change (t₁.run calls >>= _) = none
          rw [hnone]
          rfl
        · change (w₁.run calls >>= _) = none
          rw [hnone']
          rfl
      · refine Or.inr ⟨t₂, w₂, answer :: answers, ?_, ?_, h₂⟩
        · change (t₁.run calls >>= _) = _
          rw [hrun]
          rfl
        · change (w₁.run calls >>= _) = _
          rw [hrun']
          rfl

/-- The scopes of a thread report what has happened in them, and the one that is active is always
the innermost one that is open. -/
theorem scopes_report (calls : List Call) :
    (Thread.init.run calls).map (fun result => (result.1.active, result.2)) =
      (Watch.init.run calls).map fun result => (result.1.stack.head?, result.2) := by
  rcases run_matches calls matches_init with ⟨hnone, hnone'⟩ | ⟨t', w', answers, hrun, hrun', h⟩
  · rw [hnone, hnone']
    rfl
  · rw [hrun, hrun']
    change some (t'.active, answers) = some (w'.stack.head?, answers)
    rw [h.active]

end Calls

end LibAtrinik.Packet

import LibAtrinik.StreamTable

namespace LibAtrinik.Stream

open IntrusiveList

variable {Ssl σ : Type} {st : State Ssl σ} {t : Table Ssl σ} (env : Quic Ssl σ)

/-- The code comes back with what is to be represented, or neither comes back. -/
def Agrees {α β : Type} (R : α → β → Prop) : Except Fault α → Option β → Prop
  | .ok a, some b => R a b
  | .error fault, none => fault = .fuel
  | _, _ => False

theorem agrees_bind {α β γ δ : Type} {R : α → β → Prop} {S : γ → δ → Prop} {x : Except Fault α}
    {y : Option β} {f : α → Except Fault γ} {g : β → Option δ} (h : Agrees R x y)
    (hf : ∀ a b, R a b → Agrees S (f a) (g b)) : Agrees S (x >>= f) (y >>= g) := by
  cases x with
  | ok a =>
    cases y with
    | some b => exact hf a b h
    | none => exact h.elim
  | error fault =>
    cases y with
    | some b => exact h.elim
    | none => exact h

theorem agrees_of_ok {α β : Type} {R : α → β → Prop} {x : Except Fault α} {b : β}
    (h : ∃ a, x = .ok a ∧ R a b) : Agrees R x (some b) := by
  obtain ⟨a, ha, hR⟩ := h
  rw [ha]
  exact hR

section Reject

def Table.destroy (t : Table Ssl σ) (id : ℕ) (ssl : Ssl) : Table Ssl σ :=
  { t.remove id with quic := env.free t.quic ssl }

def Table.reject (t : Table Ssl σ) (id : ℕ) (ssl : Ssl) (errorCode : ℕ) :
    Table Ssl σ :=
  ({ t with quic := env.reset t.quic ssl errorCode } : Table Ssl σ).destroy env id ssl

theorem destroy_spec (h : Represents st t) (id : ℕ) (stream : SocketStream Ssl)
    (hid : t.streams id = some stream) :
    ∃ st', socketStreamDestroy env st id = .ok st' ∧
      Represents st' (t.destroy env id stream.ssl) := by
  obtain ⟨linked, hlinked, hunlinked⟩ := h.live hid
  obtain ⟨st₁, hunlink, hrep⟩ := unlink_spec h id stream hid
  have hssl : linked.ssl = stream.ssl := by
    rw [← hunlinked]
    rfl
  have hquic : st₁.quic = t.quic := hrep.quic
  refine ⟨_, ?_, hrep.withQuic (env.free t.quic stream.ssl)⟩
  unfold socketStreamDestroy
  rw [load_eq hlinked]
  change (socketStreamUnlink st id >>= fun st => _) = _
  rw [hunlink, ← hquic, ← hssl]
  rfl

theorem reject_spec (h : Represents st t) (id : ℕ) (stream : SocketStream Ssl) (errorCode : ℕ)
    (hid : t.streams id = some stream) :
    ∃ st', socketStreamReject env st id errorCode = .ok st' ∧
      Represents st' (t.reject env id stream.ssl errorCode) := by
  obtain ⟨linked, hlinked, hunlinked⟩ := h.live hid
  have hssl : linked.ssl = stream.ssl := by
    rw [← hunlinked]
    rfl
  -- rejecting a stream is destroying it after it has been reset
  obtain ⟨st', hdestroy, hrep⟩ := destroy_spec env
    (h.withQuic (env.reset t.quic stream.ssl errorCode)) id stream hid
  have hload : ({ st with quic := env.reset st.quic stream.ssl errorCode } : State Ssl σ).load id =
      .ok linked := load_eq hlinked
  refine ⟨st', ?_, hrep⟩
  rw [← hdestroy, ← h.quic]
  unfold socketStreamReject socketStreamDestroy
  rw [load_eq hlinked, hload]
  change _ = (socketStreamUnlink _ id >>= fun st => _)
  rw [← hssl]
  rfl

end Reject

section Retry

/-- What has been read of the preface of a stream. -/
def Table.received (t : Table Ssl σ) (id : ℕ) (result : Bool × SocketStream Ssl × σ) :
    Table Ssl σ :=
  { t.setStream id result.2.1 with quic := result.2.2 }

theorem socketStreamPrefaceRead_spec (h : Represents st t) (id : ℕ) (stream : SocketStream Ssl)
    (hid : t.streams id = some stream) :
    ∃ st', socketStreamPrefaceRead env st id = .ok ((prefaceRead env stream t.quic).1, st') ∧
      Represents st' (t.received id (prefaceRead env stream t.quic)) := by
  obtain ⟨linked, hlinked, hunlinked⟩ := h.live hid
  have hback : linked = { stream with next := linked.next } := by
    rw [← hunlinked]
    rfl
  have hresult := prefaceRead_next env linked.next stream t.quic
  rw [← hback] at hresult
  have hframe := (prefaceRead_spec env stream t.quic).frame
  have hnone : (prefaceRead env stream t.quic).2.1.next = none := by
    rw [hframe.2.2.1, ← hunlinked]
    rfl
  have hconnection : (prefaceRead env stream t.quic).2.1.connection = true := by
    rw [hframe.2.1]
    exact h.connected id stream hid
  let stream' : SocketStream Ssl := { (prefaceRead env stream t.quic).2.1 with next := linked.next }
  have hnext : stream'.next = linked.next := rfl
  have hrep := (h.setStream hlinked hnext hconnection).withQuic
    (prefaceRead env stream t.quic).2.2
  have hsame : stream'.unlinked = (prefaceRead env stream t.quic).2.1 := by
    change { (prefaceRead env stream t.quic).2.1 with next := none } = _
    rw [← hnone]
  rw [hsame] at hrep
  refine ⟨_, ?_, hrep⟩
  unfold socketStreamPrefaceRead
  rw [load_eq hlinked]
  change (prefaceReadLoop env 8 linked st.quic >>= fun result => _) = _
  rw [prefaceReadLoop_eq, h.quic, hresult]
  rfl

/-- The pending streams that a poll rejects after having read from them. -/
def Refused (gameStream : Option ℕ) (now : UInt64) (complete : Bool) (stream : SocketStream Ssl) :
    Prop :=
  (stream.prefacePos = 8 ∧ (complete = false ∨ (stream.kind = .game ∧ gameStream ≠ none))) ∨
    (stream.prefacePos < 8 ∧ now-stream.createdMs ≥ socketQuicPrefaceTimeoutMs)

instance (gameStream : Option ℕ) (now : UInt64) (complete : Bool) (stream : SocketStream Ssl) :
    Decidable (Refused gameStream now complete stream) := by
  unfold Refused
  infer_instance

def Table.pollStream (now : UInt64) (t : Table Ssl σ) (id : ℕ) : Table Ssl σ :=
  match t.streams id with
  | none => t
  | some stream =>
    if stream.kind = .unknown ∧ stream.prefacePos < 8 then
      let result := prefaceRead env stream t.quic
      if Refused t.gameStream now result.1 result.2.1 then
        (t.received id result).reject env id result.2.1.ssl socketStreamErrorPreface
      else t.received id result
    else t

theorem pollStream_spec (h : Represents st t) (now : UInt64) (id : ℕ)
    (stream : SocketStream Ssl) (hid : t.streams id = some stream) :
    ∃ st', pollStream env now st id = .ok st' ∧ Represents st' (t.pollStream env now id) := by
  obtain ⟨linked, hlinked, hunlinked⟩ := h.live hid
  have hpoll : pollStream env now st id =
      (if linked.kind = .unknown ∧ linked.prefacePos < 8 then
        socketStreamPrefaceRead env st id >>= fun result =>
          result.2.load id >>= fun stream =>
            if Refused result.2.sc.gameStream now result.1 stream then
              socketStreamReject env result.2 id socketStreamErrorPreface
            else .ok result.2
      else .ok st) := by
    unfold pollStream
    rw [load_eq hlinked]
    rfl
  have hkind : linked.kind = stream.kind ∧ linked.prefacePos = stream.prefacePos := by
    rw [← hunlinked]
    exact ⟨rfl, rfl⟩
  rw [hpoll, hkind.1, hkind.2]
  unfold Table.pollStream
  rw [hid]
  dsimp only
  by_cases hdue : stream.kind = .unknown ∧ stream.prefacePos < 8
  · rw [if_pos hdue, if_pos hdue]
    obtain ⟨st₁, hread, hrep⟩ := socketStreamPrefaceRead_spec env h id stream hid
    have hid₁ : (t.received id (prefaceRead env stream t.quic)).streams id =
        some (prefaceRead env stream t.quic).2.1 := Function.update_self _ _ _
    obtain ⟨linked₁, hlinked₁, hunlinked₁⟩ := hrep.live hid₁
    have hgame : st₁.sc.gameStream = t.gameStream := hrep.gameStream
    have hrefused : Refused st₁.sc.gameStream now (prefaceRead env stream t.quic).1 linked₁ ↔
        Refused t.gameStream now (prefaceRead env stream t.quic).1
          (prefaceRead env stream t.quic).2.1 := by
      rw [hgame, ← hunlinked₁]
      exact Iff.rfl
    rw [hread]
    change ∃ st', (st₁.load id >>= fun stream => _) = _ ∧ _
    rw [load_eq hlinked₁]
    change ∃ st', (if Refused _ _ _ _ then _ else _) = _ ∧ _
    by_cases hrefuse : Refused t.gameStream now (prefaceRead env stream t.quic).1
        (prefaceRead env stream t.quic).2.1
    · rw [if_pos (hrefused.mpr hrefuse), if_pos hrefuse]
      exact reject_spec env hrep id _ _ hid₁
    · rw [if_neg (fun hno => hrefuse (hrefused.mp hno)), if_neg hrefuse]
      exact ⟨st₁, rfl, hrep⟩
  · rw [if_neg hdue, if_neg hdue]
    exact ⟨st, rfl, h⟩

theorem pending_pollStream (now : UInt64) (t : Table Ssl σ) (id : ℕ) :
    (t.pollStream env now id).pending = t.pending ∨
      (t.pollStream env now id).pending = t.pending.erase id := by
  unfold Table.pollStream
  split
  · exact Or.inl rfl
  · dsimp only
    split_ifs
    · exact Or.inr rfl
    · exact Or.inl rfl
    · exact Or.inl rfl

/-- A list in memory starts with its first node. -/
theorem head_of_seg {links : ℕ → Option (Option ℕ)} {p : Option ℕ} {l : List ℕ}
    (h : Seg some links p l none) : p = l.head? := by
  cases l with
  | nil => exact h
  | cons id l => exact h.1

/-- The first loop goes over the pending streams, although it rejects some of them. -/
theorem pollPending_spec (now : UInt64) (rest : List ℕ) (fuel : ℕ) (h : Represents st t)
    (hrest : rest <:+ t.pending) (hfuel : rest.length ≤ fuel) :
    ∃ st', pollPending env now fuel rest.head? st = .ok st' ∧
      Represents st' (rest.foldl (Table.pollStream env now) t) := by
  induction rest generalizing fuel st t with
  | nil =>
    refine ⟨st, ?_, h⟩
    cases fuel <;> rfl
  | cons id rest ih =>
    obtain ⟨fuel, hsucc⟩ : ∃ n, fuel = n+1 := ⟨fuel-1, by rw [List.length_cons] at hfuel; omega⟩
    obtain ⟨before, hsplit⟩ := hrest
    have hlisted : Listed st (before ++ id :: rest) := by
      rw [hsplit]
      exact h.listed
    obtain ⟨_, _, _, next, hnext, htail⟩ := seg_append.mp hlisted
    obtain ⟨linked, hlinked, hlinkedNext⟩ := streams_of_links hnext
    obtain ⟨stream, hstream⟩ := h.pending_live id (hsplit ▸ List.mem_append_right _
      List.mem_cons_self)
    obtain ⟨st₁, hpoll, hrep⟩ := pollStream_spec env h now id stream hstream
    -- the streams that come later are still listed
    have hnot : id ∉ before := by
      have hapart := (List.nodup_append.mp hlisted.nodup).2.2
      intro hmem
      exact hapart id hmem id List.mem_cons_self rfl
    have hsuffix : rest <:+ (t.pollStream env now id).pending := by
      rcases pending_pollStream env now t id with hsame | herase
      · rw [hsame, ← hsplit]
        exact ⟨before ++ [id], by rw [List.append_assoc]; rfl⟩
      · rw [herase, ← hsplit, List.erase_append_right _ hnot, List.erase_cons_head]
        exact ⟨before, rfl⟩
    obtain ⟨st', hloop, hrep'⟩ := ih fuel hrep hsuffix (by rw [List.length_cons] at hfuel; omega)
    refine ⟨st', ?_, hrep'⟩
    rw [hsucc]
    change (st.load id >>= fun stream => _) = _
    rw [load_eq hlinked]
    change (pollStream env now st id >>= fun st => pollPending env now fuel linked.next st) = _
    rw [hpoll, hlinkedNext, head_of_seg htail]
    exact hloop

end Retry

section Incoming

/-- A stream is allocated. -/
def Table.allocate (t : Table Ssl σ) (ssl : Ssl) (kind : SocketStreamKind) (preface : Preface)
    (isLocal : Bool) : Table Ssl σ :=
  { t with
    streams := Function.update t.streams t.allocated (some
      { ssl, connection := true, next := none, kind, preface, prefacePos := 0,
        createdMs := (env.now t.quic).1, isLocal })
    allocated := t.allocated+1
    quic := (env.now t.quic).2 }

theorem allocate_spec (h : Represents st t) (ssl : Ssl) (kind : SocketStreamKind)
    (preface : Preface) (isLocal : Bool)
    (hpreface : initialPreface kind isLocal = .ok preface) :
    ∃ st', socketStreamAllocate env st ssl kind isLocal = .ok (t.allocated, st') ∧
      Represents st' (t.allocate env ssl kind preface isLocal) := by
  let stream : SocketStream Ssl :=
    { ssl, connection := true, next := none, kind, preface, prefacePos := 0,
      createdMs := (env.now t.quic).1, isLocal }
  let st' : State Ssl σ :=
    { st.setStream t.allocated stream with
      allocated := t.allocated+1
      quic := (env.now t.quic).2 }
  refine ⟨st', ?_, ?_, h.count, ?_, ?_, ?_⟩
  · unfold socketStreamAllocate
    rw [hpreface, h.quic, h.allocated]
    rfl
  · apply Seg.congr h.listed
    intro id hid
    obtain ⟨other, hother⟩ := h.pending_live id hid
    have hne : id ≠ t.allocated := Nat.ne_of_lt (h.below id other hother)
    change (Function.update st.streams t.allocated (some stream) id).map _ = _
    rw [Function.update_of_ne hne]
    rfl
  · have hstreams := Function.comp_update (Option.map SocketStream.unlinked) st.streams t.allocated
      (some stream)
    have htable : st'.table t.pending = { st.table t.pending with
        streams := Function.update (st.table t.pending).streams t.allocated (some stream)
        allocated := t.allocated+1
        quic := (env.now t.quic).2 } := by
      simp only [st', State.table, State.setStream, hstreams]
      rfl
    have hpending : (t.allocate env ssl kind preface isLocal).pending = t.pending := rfl
    rw [hpending, htable, h.table]
    rfl
  · intro id other hother
    change Function.update t.streams t.allocated _ id = some other at hother
    by_cases hsame : id = t.allocated
    · rw [hsame]
      exact Nat.lt_succ_self _
    · rw [Function.update_of_ne hsame] at hother
      exact Nat.lt_succ_of_lt (h.below id other hother)
  · intro id other hother
    change Function.update t.streams t.allocated _ id = some other at hother
    by_cases hsame : id = t.allocated
    · rw [hsame, Function.update_self] at hother
      rw [← Option.some.inj hother]
    · rw [Function.update_of_ne hsame] at hother
      exact h.connected id other hother

/-- A stream is put in front of the pending ones. -/
theorem push_spec (h : Represents st t) (id : ℕ) (linked : SocketStream Ssl)
    (hid : st.streams id = some linked) (hnot : id ∉ t.pending) :
    Represents (st.pushPending id linked) { t with pending := id :: t.pending } := by
  have hlinks := Function.comp_update (Option.map SocketStream.next) st.streams id
    (some { linked with next := st.sc.pendingStreams })
  constructor
  · apply Seg.push h.listed id hnot
    · change (Option.map SocketStream.next ∘ Function.update _ _ _) id = _
      rw [hlinks, Function.update_self]
      rfl
    · intro other hne
      change (Option.map SocketStream.next ∘ Function.update _ _ _) other = _
      rw [hlinks, Function.update_of_ne hne]
      rfl
  · change st.sc.pendingStreamCount+1 = t.pending.length+1
    rw [h.count]
  · have hstreams : Option.map SocketStream.unlinked ∘
        Function.update st.streams id (some { linked with next := st.sc.pendingStreams }) =
          Option.map SocketStream.unlinked ∘ st.streams := by
      rw [Function.comp_update]
      apply Function.update_eq_self_iff.mpr
      rw [Function.comp_apply, hid]
      rfl
    have hafter : (st.pushPending id linked).table (id :: t.pending) =
        { st.table t.pending with pending := id :: t.pending } := by
      simp only [State.table, State.pushPending, State.setStream, hstreams]
    exact hafter.trans (by rw [h.table])
  · exact h.below
  · exact h.connected

/-- A stream that has just been accepted. -/
def incomingStream (ssl : Ssl) (createdMs : UInt64) : SocketStream Ssl :=
  { ssl, connection := true, next := none, kind := .unknown, preface := Preface.zero,
    prefacePos := 0, createdMs, isLocal := false }

/-- What the first reads on it give. -/
def firstRead (s : σ) (ssl : Ssl) : Bool × SocketStream Ssl × σ :=
  prefaceRead env (incomingStream ssl (env.now s).1) (env.now s).2

def Table.pollIncoming (t : Table Ssl σ) (ssl : Ssl) : Table Ssl σ :=
  let result := firstRead env t.quic ssl
  let t' := ({ t.allocate env ssl .unknown Preface.zero false with
    pending := t.allocated :: t.pending } : Table Ssl σ).received t.allocated result
  if result.1 = false ∧ result.2.1.prefacePos = 8 then
    t'.reject env t.allocated result.2.1.ssl socketStreamErrorPreface
  else t'

theorem pollIncoming_spec (h : Represents st t) (ssl : Ssl) :
    ∃ st', pollIncoming env st ssl = .ok st' ∧ Represents st' (t.pollIncoming env ssl) := by
  obtain ⟨st₁, hallocate, hrep₁⟩ := allocate_spec env h ssl .unknown Preface.zero false rfl
  have hnot : t.allocated ∉ t.pending := by
    intro hmem
    obtain ⟨stream, hstream⟩ := h.pending_live _ hmem
    exact absurd (h.below _ stream hstream) (Nat.lt_irrefl _)
  obtain ⟨linked, hlinked, _⟩ := hrep₁.live (Function.update_self _ _ _)
  have hrep₂ := push_spec hrep₁ t.allocated linked hlinked hnot
  obtain ⟨st₃, hread, hrep₃⟩ := socketStreamPrefaceRead_spec env hrep₂ t.allocated _
    (Function.update_self _ _ _)
  obtain ⟨linked₃, hlinked₃, hunlinked₃⟩ := hrep₃.live (Function.update_self _ _ _)
  have hpoll : pollIncoming env st ssl =
      (if (firstRead env t.quic ssl).1 = false ∧ linked₃.prefacePos = 8 then
        socketStreamReject env st₃ t.allocated socketStreamErrorPreface
      else .ok st₃) := by
    unfold pollIncoming
    rw [hallocate]
    change (st₁.load t.allocated >>= fun incoming => _) = _
    rw [load_eq hlinked]
    change (socketStreamPrefaceRead env (st₁.pushPending t.allocated linked) t.allocated >>=
      fun result => _) = _
    rw [hread]
    change (st₃.load t.allocated >>= fun incoming => _) = _
    rw [load_eq hlinked₃]
    rfl
  rw [hpoll, Table.pollIncoming]
  have hpos : linked₃.prefacePos = linked₃.unlinked.prefacePos := rfl
  rw [hpos, hunlinked₃]
  change ∃ st', (if _ ∧ (firstRead env t.quic ssl).2.1.prefacePos = 8 then _ else _) = _ ∧ _
  by_cases hbad : (firstRead env t.quic ssl).1 = false ∧
      (firstRead env t.quic ssl).2.1.prefacePos = 8
  · rw [if_pos hbad]
    dsimp only
    rw [if_pos hbad]
    exact reject_spec env hrep₃ t.allocated _ _ (Function.update_self _ _ _)
  · rw [if_neg hbad]
    dsimp only
    rw [if_neg hbad]
    exact ⟨st₃, rfl, hrep₃⟩

end Incoming

section Poll

/-- The second loop; `none` when it has not come to its end after `fuel` streams. -/
def Table.pollAccept : ℕ → Table Ssl σ → Option (Table Ssl σ)
  | fuel, t =>
    if t.pending.length < socketQuicPendingStreamMax then
      match env.acceptStream t.quic with
      | (none, quic) => some { t with quic }
      | (some ssl, quic) =>
        match fuel with
        | 0 => none
        | fuel+1 => Table.pollAccept fuel (({ t with quic } : Table Ssl σ).pollIncoming env ssl)
    else some t

theorem pollAccept_agrees (fuel : ℕ) (h : Represents st t) :
    Agrees Represents (pollAccept env fuel st) (t.pollAccept env fuel) := by
  induction fuel generalizing st t with
  | zero =>
    rw [pollAccept, Table.pollAccept, h.count, h.quic]
    split_ifs
    · rcases env.acceptStream t.quic with ⟨offer, quic⟩
      cases offer with
      | none => exact h.withQuic quic
      | some ssl => rfl
    · exact h
  | succ fuel ih =>
    rw [pollAccept, Table.pollAccept, h.count, h.quic]
    split_ifs
    · rcases env.acceptStream t.quic with ⟨offer, quic⟩
      cases offer with
      | none => exact h.withQuic quic
      | some ssl =>
        obtain ⟨st', hpoll, hrep⟩ := pollIncoming_spec env (h.withQuic quic) ssl
        change Agrees Represents
          (pollIncoming env { st with quic } ssl >>= fun st => pollAccept env fuel st) _
        rw [hpoll]
        exact ih hrep
    · exact h

/-- The first loop over all pending streams. -/
def Table.retry (t : Table Ssl σ) : Table Ssl σ :=
  t.pending.foldl (Table.pollStream env (env.now t.quic).1) { t with quic := (env.now t.quic).2 }

def Table.poll (fuel : ℕ) (t : Table Ssl σ) : Option (Table Ssl σ) :=
  (t.retry env).pollAccept env fuel

theorem poll_agrees (fuel : ℕ) (h : Represents st t) :
    Agrees Represents (socketStreamPollIncoming env fuel st) (t.poll env fuel) := by
  have hrep := h.withQuic (env.now t.quic).2
  obtain ⟨st₁, hloop, hrep₁⟩ := pollPending_spec env (env.now t.quic).1 t.pending st.allocated hrep
    (List.suffix_refl _) h.length_le
  have hhead : st.sc.pendingStreams = t.pending.head? := head_of_seg h.listed
  unfold socketStreamPollIncoming
  rw [h.quic]
  change Agrees Represents (pollPending env _ st.allocated st.sc.pendingStreams _ >>= fun st => _) _
  rw [hhead, hloop]
  exact pollAccept_agrees env fuel hrep₁

end Poll

end LibAtrinik.Stream

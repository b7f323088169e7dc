import LibAtrinik.StreamCalls
import LibAtrinik.StreamNet

namespace LibAtrinik.Stream

variable {Ssl σ : Type} {st : State Ssl σ} {t : Table Ssl σ} {handed : List ℕ}

section Rules

variable (env : Quic Ssl σ) (I : Table Ssl σ → Prop)

/-- The invariant rule for the first loop of a poll. -/
theorem retry_rule (now : UInt64)
    (hstream : ∀ t id, I t → id ∈ t.pending → I (t.pollStream env now id)) (rest : List ℕ)
    (hnodup : rest.Nodup) (hmem : ∀ id ∈ rest, id ∈ t.pending) (h : I t) :
    I (rest.foldl (Table.pollStream env now) t) := by
  induction rest generalizing t with
  | nil => exact h
  | cons id rest ih =>
    obtain ⟨hnot, hnodup⟩ := List.nodup_cons.mp hnodup
    apply ih hnodup _ (hstream t id h (hmem id List.mem_cons_self))
    intro other hother
    have hpending := hmem other (List.mem_cons_of_mem id hother)
    have hne : other ≠ id := fun hsame => hnot (hsame ▸ hother)
    rcases pending_pollStream env now t id with hsame | herase
    · rw [hsame]
      exact hpending
    · rw [herase]
      exact (List.mem_erase_of_ne hne).mpr hpending

/-- The invariant rule for the second loop. -/
theorem pollAccept_rule
    (hnone : ∀ t quic, I t → env.acceptStream t.quic = (none, quic) → I { t with quic })
    (hsome : ∀ (t : Table Ssl σ) ssl quic, I t → t.pending.length < socketQuicPendingStreamMax →
      env.acceptStream t.quic = (some ssl, quic) →
        I (({ t with quic } : Table Ssl σ).pollIncoming env ssl))
    (fuel : ℕ) (t' : Table Ssl σ) (h : I t) (hloop : t.pollAccept env fuel = some t') : I t' := by
  induction fuel generalizing t with
  | zero =>
    rw [Table.pollAccept] at hloop
    split_ifs at hloop
    · rcases hoffer : env.acceptStream t.quic with ⟨offer, quic⟩
      rw [hoffer] at hloop
      cases offer with
      | none =>
        rw [← Option.some.inj hloop]
        exact hnone t quic h hoffer
      | some ssl => cases hloop
    · rwa [← Option.some.inj hloop]
  | succ fuel ih =>
    rw [Table.pollAccept] at hloop
    split_ifs at hloop with hroom
    · rcases hoffer : env.acceptStream t.quic with ⟨offer, quic⟩
      rw [hoffer] at hloop
      cases offer with
      | none =>
        rw [← Option.some.inj hloop]
        exact hnone t quic h hoffer
      | some ssl => exact ih (hsome t ssl quic h hroom hoffer) hloop
    · rwa [← Option.some.inj hloop]

/-- The invariant rule for a poll. -/
theorem poll_rule (hclock : ∀ t, I t → I { t with quic := (env.now t.quic).2 })
    (hstream : ∀ now t id, I t → id ∈ t.pending → I (t.pollStream env now id))
    (hnone : ∀ t quic, I t → env.acceptStream t.quic = (none, quic) → I { t with quic })
    (hsome : ∀ (t : Table Ssl σ) ssl quic, I t → t.pending.length < socketQuicPendingStreamMax →
      env.acceptStream t.quic = (some ssl, quic) →
        I (({ t with quic } : Table Ssl σ).pollIncoming env ssl))
    (fuel : ℕ) (t' : Table Ssl σ) (hnodup : t.pending.Nodup) (h : I t)
    (hpoll : t.poll env fuel = some t') : I t' :=
  pollAccept_rule env I hnone hsome fuel t'
    (retry_rule env I (t := { t with quic := (env.now t.quic).2 }) _ (hstream _) t.pending hnodup
      (fun _ hid => hid) (hclock t h)) hpoll

end Rules

/-- The preface has not arrived, or it has arrived and tells the kind. -/
def Settled (stream : SocketStream Ssl) : Prop :=
  (stream.kind = .unknown ∧ stream.prefacePos < 8) ∨
    (stream.prefacePos = 8 ∧ socketStreamPrefaceDecode stream.preface.val = some stream.kind)

/-- What holds of the streams between two calls. -/
structure Table.Inv (t : Table Ssl σ) (handed : List ℕ) : Prop where
  bound : t.pending.length ≤ socketQuicPendingStreamMax
  nodup : t.pending.Nodup
  handedNodup : handed.Nodup
  apart : ∀ id ∈ t.pending, id ∉ handed
  live : ∀ id, (∃ stream, t.streams id = some stream) ↔ id ∈ t.pending ∨ id ∈ handed
  below : ∀ id stream, t.streams id = some stream → id < t.allocated
  game : ∀ id, t.gameStream = some id → id ∈ handed
  settled : ∀ id ∈ t.pending, ∀ stream, t.streams id = some stream → Settled stream

theorem Table.Inv.withQuic (h : t.Inv handed) (quic : σ) :
    ({ t with quic } : Table Ssl σ).Inv handed :=
  ⟨h.bound, h.nodup, h.handedNodup, h.apart, h.live, h.below, h.game, h.settled⟩

theorem Table.Inv.fresh (h : t.Inv handed) : t.allocated ∉ t.pending ∧ t.allocated ∉ handed := by
  have hno : ∀ hin : t.allocated ∈ t.pending ∨ t.allocated ∈ handed, False := by
    intro hin
    obtain ⟨stream, hstream⟩ := (h.live _).mpr hin
    exact Nat.lt_irrefl _ (h.below _ stream hstream)
  exact ⟨fun hin => hno (Or.inl hin), fun hin => hno (Or.inr hin)⟩

/-- A stream is changed; if it is pending, it is settled. -/
theorem Table.Inv.setStream (h : t.Inv handed) (id : ℕ) (stream : SocketStream Ssl)
    (hlive : id ∈ t.pending ∨ id ∈ handed) (hsettled : id ∈ t.pending → Settled stream) :
    (t.setStream id stream).Inv handed := by
  refine ⟨h.bound, h.nodup, h.handedNodup, h.apart, ?_, ?_, h.game, ?_⟩
  · intro other
    by_cases hsame : other = id
    · rw [hsame]
      exact iff_of_true ⟨stream, Function.update_self _ _ _⟩ hlive
    · change (∃ s, Function.update t.streams id _ other = some s) ↔ _
      rw [Function.update_of_ne hsame]
      exact h.live other
  · intro other s hs
    change Function.update t.streams id _ other = some s at hs
    by_cases hsame : other = id
    · obtain ⟨old, hold⟩ := (h.live id).mpr hlive
      rw [hsame]
      exact h.below id old hold
    · rw [Function.update_of_ne hsame] at hs
      exact h.below other s hs
  · intro other hother s hs
    change Function.update t.streams id _ other = some s at hs
    by_cases hsame : other = id
    · rw [hsame, Function.update_self] at hs
      rw [← Option.some.inj hs]
      exact hsettled (hsame ▸ hother)
    · rw [Function.update_of_ne hsame] at hs
      exact h.settled other hother s hs

/-- A stream is destroyed, wherever it was. -/
theorem Table.Inv.remove (h : t.Inv handed) (id : ℕ) : (t.remove id).Inv (handed.erase id) := by
  refine ⟨?_, h.nodup.erase id, h.handedNodup.erase id, ?_, ?_, ?_, ?_, ?_⟩
  · exact Nat.le_trans List.length_erase_le h.bound
  · intro other hother hin
    exact h.apart other (List.mem_of_mem_erase hother) (List.mem_of_mem_erase hin)
  · intro other
    change (∃ s, Function.update t.streams id none other = some s) ↔
      other ∈ t.pending.erase id ∨ other ∈ handed.erase id
    rw [h.nodup.mem_erase_iff, h.handedNodup.mem_erase_iff, ← and_or_left, ← h.live other]
    by_cases hsame : other = id
    · rw [hsame, Function.update_self]
      constructor
      · intro hsome
        obtain ⟨s, hs⟩ := hsome
        cases hs
      · intro hne
        exact absurd rfl hne.1
    · rw [Function.update_of_ne hsame]
      exact ⟨fun hsome => ⟨hsame, hsome⟩, fun hboth => hboth.2⟩
  · intro other s hs
    change Function.update t.streams id none other = some s at hs
    by_cases hsame : other = id
    · rw [hsame, Function.update_self] at hs
      cases hs
    · rw [Function.update_of_ne hsame] at hs
      exact h.below other s hs
  · intro other hother
    change (if t.gameStream = some id then none else t.gameStream) = some other at hother
    split_ifs at hother with hgame
    have hne : other ≠ id := by
      intro hsame
      rw [hsame] at hother
      exact hgame hother
    exact (List.mem_erase_of_ne hne).mpr (h.game other hother)
  · intro other hother s hs
    have hne : other ≠ id := by
      intro hsame
      rw [hsame] at hother
      exact h.nodup.not_mem_erase hother
    change Function.update t.streams id none other = some s at hs
    rw [Function.update_of_ne hne] at hs
    exact h.settled other (List.mem_of_mem_erase hother) s hs

theorem Table.Inv.removePending (h : t.Inv handed) (id : ℕ) (hid : id ∉ handed) :
    (t.remove id).Inv handed := by
  have hinv := h.remove id
  rwa [List.erase_of_not_mem hid] at hinv

/-- A new stream, handed out at once. -/
theorem Table.Inv.allocate (env : Quic Ssl σ) (h : t.Inv handed) (ssl : Ssl)
    (kind : SocketStreamKind) (preface : Preface) (isLocal : Bool) :
    (t.allocate env ssl kind preface isLocal).Inv (t.allocated :: handed) := by
  have hfresh := h.fresh
  refine ⟨h.bound, h.nodup, List.nodup_cons.mpr ⟨hfresh.2, h.handedNodup⟩, ?_, ?_, ?_, ?_, ?_⟩
  · intro id hid hin
    rcases List.mem_cons.mp hin with hsame | hin
    · exact hfresh.1 (hsame ▸ hid)
    · exact h.apart id hid hin
  · intro id
    change (∃ s, Function.update t.streams t.allocated _ id = some s) ↔
      id ∈ t.pending ∨ id ∈ t.allocated :: handed
    rw [List.mem_cons]
    by_cases hsame : id = t.allocated
    · rw [hsame, Function.update_self]
      exact iff_of_true ⟨_, rfl⟩ (Or.inr (Or.inl rfl))
    · rw [Function.update_of_ne hsame, h.live id]
      constructor
      · intro hin
        exact hin.imp_right Or.inr
      · intro hin
        exact hin.imp_right fun hin => hin.resolve_left hsame
  · intro id s hs
    change Function.update t.streams t.allocated _ id = some s at hs
    by_cases hsame : id = t.allocated
    · rw [hsame]
      exact Nat.lt_succ_self _
    · rw [Function.update_of_ne hsame] at hs
      exact Nat.lt_succ_of_lt (h.below id s hs)
  · intro id hid
    exact List.mem_cons_of_mem _ (h.game id hid)
  · intro id hid s hs
    have hne : id ≠ t.allocated := fun hsame => hfresh.1 (hsame ▸ hid)
    change Function.update t.streams t.allocated _ id = some s at hs
    rw [Function.update_of_ne hne] at hs
    exact h.settled id hid s hs

/-- A stream goes from those handed out to the pending ones. -/
theorem Table.Inv.push {id : ℕ} (h : t.Inv (id :: handed))
    (hroom : t.pending.length < socketQuicPendingStreamMax) (hgame : t.gameStream ≠ some id)
    (hsettled : ∀ stream, t.streams id = some stream → Settled stream) :
    ({ t with pending := id :: t.pending } : Table Ssl σ).Inv handed := by
  obtain ⟨hnot, hnodup⟩ := List.nodup_cons.mp h.handedNodup
  have hpending : id ∉ t.pending := fun hin => h.apart id hin List.mem_cons_self
  refine ⟨hroom, List.nodup_cons.mpr ⟨hpending, h.nodup⟩, hnodup, ?_, ?_, h.below, ?_, ?_⟩
  · intro other hother hin
    rcases List.mem_cons.mp hother with hsame | hother
    · exact hnot (hsame ▸ hin)
    · exact h.apart other hother (List.mem_cons_of_mem id hin)
  · intro other
    rw [h.live other, List.mem_cons]
    change _ ↔ other ∈ id :: t.pending ∨ other ∈ handed
    rw [List.mem_cons, or_assoc, or_left_comm]
  · intro other hother
    rcases List.mem_cons.mp (h.game other hother) with hsame | hin
    · exact absurd (hsame ▸ hother) hgame
    · exact hin
  · intro other hother s hs
    rcases List.mem_cons.mp hother with hsame | hother
    · rw [hsame] at hs
      exact hsettled s hs
    · exact h.settled other hother s hs

/-- A pending stream is handed out. -/
theorem Table.Inv.pop (h : t.Inv handed) (id : ℕ) (hid : id ∈ t.pending) :
    ({ t with pending := t.pending.erase id } : Table Ssl σ).Inv (id :: handed) := by
  refine ⟨Nat.le_trans List.length_erase_le h.bound, h.nodup.erase id,
    List.nodup_cons.mpr ⟨h.apart id hid, h.handedNodup⟩, ?_, ?_, h.below, ?_, ?_⟩
  · intro other hother hin
    obtain ⟨hne, hpending⟩ := h.nodup.mem_erase_iff.mp hother
    rcases List.mem_cons.mp hin with hsame | hin
    · exact hne hsame
    · exact h.apart other hpending hin
  · intro other
    rw [h.live other, List.mem_cons]
    change _ ↔ other ∈ t.pending.erase id ∨ _
    rw [h.nodup.mem_erase_iff]
    constructor
    · intro hin
      by_cases hsame : other = id
      · exact Or.inr (Or.inl hsame)
      · exact hin.imp (fun hin => ⟨hsame, hin⟩) Or.inr
    · intro hin
      rcases hin with hin | hsame | hin
      · exact Or.inl hin.2
      · exact Or.inl (hsame ▸ hid)
      · exact Or.inr hin
  · intro other hother
    exact List.mem_cons_of_mem id (h.game other hother)
  · intro other hother s hs
    exact h.settled other (List.mem_of_mem_erase hother) s hs

section Steps

variable (env : Quic Ssl σ)

/-- What a poll does with a pending stream. -/
theorem pollStream_cases (now : UInt64) (t : Table Ssl σ) (id : ℕ) (stream : SocketStream Ssl)
    (hid : t.streams id = some stream) :
    (¬(stream.kind = .unknown ∧ stream.prefacePos < 8) ∧ t.pollStream env now id = t) ∨
      ((stream.kind = .unknown ∧ stream.prefacePos < 8) ∧
        Refused t.gameStream now (prefaceRead env stream t.quic).1
          (prefaceRead env stream t.quic).2.1 ∧
        t.pollStream env now id = (t.received id (prefaceRead env stream t.quic)).reject env id
          (prefaceRead env stream t.quic).2.1.ssl socketStreamErrorPreface) ∨
      ((stream.kind = .unknown ∧ stream.prefacePos < 8) ∧
        ¬Refused t.gameStream now (prefaceRead env stream t.quic).1
          (prefaceRead env stream t.quic).2.1 ∧
        t.pollStream env now id = t.received id (prefaceRead env stream t.quic)) := by
  unfold Table.pollStream
  rw [hid]
  dsimp only
  by_cases hdue : stream.kind = .unknown ∧ stream.prefacePos < 8
  · rw [if_pos hdue]
    right
    by_cases hrefused : Refused t.gameStream now (prefaceRead env stream t.quic).1
        (prefaceRead env stream t.quic).2.1
    · exact Or.inl ⟨hdue, hrefused, if_pos hrefused⟩
    · exact Or.inr ⟨hdue, hrefused, if_neg hrefused⟩
  · exact Or.inl ⟨hdue, if_neg hdue⟩

/-- A stream that has been rejected leaves nothing behind of what was read from it. -/
theorem received_reject (t : Table Ssl σ) (id : ℕ) (result : Bool × SocketStream Ssl × σ) (ssl : Ssl)
    (errorCode : ℕ) :
    (t.received id result).reject env id ssl errorCode =
      { t.remove id with quic := env.free (env.reset result.2.2 ssl errorCode) ssl } := by
  have hstreams : Function.update (Function.update t.streams id (some result.2.1)) id none =
      Function.update t.streams id none := Function.update_idem _ _ _
  simp only [Table.received, Table.reject, Table.destroy, Table.remove, Table.setStream, hstreams]
  rfl

/-- What is kept of a preface is settled, unless it is complete and not recognised. -/
theorem settled_of_outcome {stream stream' : SocketStream Ssl} {s s' : σ} {complete : Bool}
    (h : PrefaceRead env stream s complete stream' s') (hkind : stream.kind = .unknown)
    (hpos : stream.prefacePos ≤ 8) (hkept : ¬(complete = false ∧ stream'.prefacePos = 8)) :
    Settled stream' := by
  rcases h.outcome hpos with ⟨_, hfull, hdecode⟩ | ⟨hincomplete, hle, hsame⟩
  · exact Or.inr ⟨hfull, hdecode⟩
  · left
    refine ⟨hsame.trans hkind, ?_⟩
    have hne : stream'.prefacePos ≠ 8 := fun hfull => hkept ⟨hincomplete, hfull⟩
    omega

theorem pollStream_inv (now : UInt64) (h : t.Inv handed) (id : ℕ) (hid : id ∈ t.pending) :
    (t.pollStream env now id).Inv handed := by
  obtain ⟨stream, hstream⟩ := (h.live id).mpr (Or.inl hid)
  rcases pollStream_cases env now t id stream hstream with
    ⟨_, hsame⟩ | ⟨hdue, _, hrejected⟩ | ⟨hdue, hrefused, hkept⟩
  · rwa [hsame]
  · rw [hrejected, received_reject]
    exact (h.removePending id (h.apart id hid)).withQuic _
  · rw [hkept]
    have hread := prefaceRead_spec env stream t.quic
    have hsettled := settled_of_outcome env hread hdue.1 (Nat.le_of_lt hdue.2) (fun hbad =>
      hrefused (Or.inl ⟨hbad.2, Or.inl hbad.1⟩))
    exact (h.setStream id _ (Or.inl hid) fun _ => hsettled).withQuic _

theorem pollIncoming_inv (h : t.Inv handed) (hroom : t.pending.length < socketQuicPendingStreamMax)
    (ssl : Ssl) : (t.pollIncoming env ssl).Inv handed := by
  have hfresh := h.fresh
  have hread := prefaceRead_spec env (incomingStream ssl (env.now t.quic).1) (env.now t.quic).2
  have hinv := h.allocate env ssl .unknown Preface.zero false
  unfold Table.pollIncoming
  dsimp only
  split_ifs with hbad
  · rw [received_reject]
    have hremoved := hinv.remove t.allocated
    rw [List.erase_cons_head] at hremoved
    have herase : (t.allocated :: t.pending).erase t.allocated = t.pending.erase t.allocated := by
      rw [List.erase_cons_head, List.erase_of_not_mem hfresh.1]
    unfold Table.remove at hremoved ⊢
    dsimp only
    rw [herase]
    exact hremoved.withQuic _
  · have hset := hinv.setStream t.allocated (firstRead env t.quic ssl).2.1
      (Or.inr List.mem_cons_self) (fun hin => absurd hin hfresh.1)
    have hself : ((t.allocate env ssl .unknown Preface.zero false).setStream t.allocated
        (firstRead env t.quic ssl).2.1).streams t.allocated = some (firstRead env t.quic ssl).2.1 :=
      Function.update_self _ _ _
    refine (hset.push hroom ?_ ?_).withQuic _
    · intro hgame
      exact hfresh.2 (h.game _ hgame)
    · intro stream hstream
      rw [hself] at hstream
      rw [← Option.some.inj hstream]
      exact settled_of_outcome env hread rfl (Nat.zero_le 8) hbad

theorem poll_inv (fuel : ℕ) (t' : Table Ssl σ) (h : t.Inv handed)
    (hpoll : t.poll env fuel = some t') : t'.Inv handed :=
  poll_rule env (fun t => t.Inv handed) (fun _ h => h.withQuic _)
    (fun now _ id h hid => pollStream_inv env now h id hid) (fun _ quic h _ => h.withQuic quic)
    (fun _ ssl quic h hroom _ => pollIncoming_inv env (h.withQuic quic) hroom ssl)
    fuel t' h.nodup h hpoll

theorem handOut_inv (h : t.Inv handed) (kind : SocketStreamKind) :
    (t.handOut kind).2.Inv ((t.handOut kind).1.toList ++ handed) := by
  unfold Table.handOut
  split
  · exact h.pop _ (List.mem_of_find?_eq_some ‹_›)
  · exact h

theorem accept_inv (fuel : ℕ) (h : t.Inv handed) (kind : SocketStreamKind)
    (result : Option ℕ × Table Ssl σ) (haccept : t.accept env fuel kind = some result) :
    result.2.Inv (result.1.toList ++ handed) := by
  unfold Table.accept at haccept
  split_ifs at haccept
  · rw [← Option.some.inj haccept]
    exact h
  · obtain ⟨t₁, hpoll, hresult⟩ := Option.bind_eq_some_iff.mp haccept
    rw [← Option.some.inj hresult]
    exact handOut_inv (poll_inv env fuel t₁ h hpoll) kind

theorem open_inv (h : t.Inv handed) (kind : SocketStreamKind) :
    (t.openStream env kind).2.Inv ((t.openStream env kind).1.toList ++ handed) := by
  unfold Table.openStream
  split_ifs
  · exact h
  · split
    · exact (h.withQuic _).allocate env _ _ _ _
    · exact h.withQuic _

theorem acquireGame_inv (fuel : ℕ) (h : t.Inv handed) (role : SocketRole)
    (result : Option ℕ × Table Ssl σ) (hacquire : t.acquireGame env fuel role = some result) :
    result.2.Inv (result.1.toList ++ handed) := by
  cases role with
  | client =>
    rw [← Option.some.inj hacquire]
    exact open_inv env h .game
  | server => exact accept_inv env fuel h .game result hacquire

theorem prepare_inv (fuel : ℕ) (h : t.Inv handed) (result : Prepared × Table Ssl σ)
    (hprepare : t.prepare env fuel = some result) :
    result.2.Inv
      ((if t.gameStream = none then result.2.gameStream else none).toList ++ handed) := by
  have hsame : ∀ game : Option ℕ, game = t.gameStream →
      ((if t.gameStream = none then game else none).toList ++ handed) = handed := by
    intro game hgame
    rw [hgame]
    split_ifs with hnone
    · rw [hnone]
      rfl
    · rfl
  unfold Table.prepare at hprepare
  dsimp only at hprepare
  have hinv : ∀ quic, ({ t with
      connectionIdFinal := (handshake env t.connectionIdFinal t.quic).2.1
      quic } : Table Ssl σ).Inv handed := fun quic =>
    ⟨h.bound, h.nodup, h.handedNodup, h.apart, h.live, h.below, h.game, h.settled⟩
  by_cases hready : (handshake env t.connectionIdFinal t.quic).1 ≠ .ready
  · rw [if_pos hready] at hprepare
    rw [← Option.some.inj hprepare, hsame _ rfl]
    exact hinv _
  rw [if_neg hready] at hprepare
  by_cases hgame : t.gameStream ≠ none
  · rw [if_pos hgame] at hprepare
    rw [← Option.some.inj hprepare, hsame _ rfl]
    exact hinv _
  rw [if_neg hgame] at hprepare
  generalize (if t.role = .server then env.handleEvents (handshake env t.connectionIdFinal t.quic).2.2
    else (true, (handshake env t.connectionIdFinal t.quic).2.2)) = events at hprepare
  by_cases hfailed : events.1 = false
  · rw [if_pos hfailed] at hprepare
    rw [← Option.some.inj hprepare, hsame _ rfl]
    exact hinv _
  · rw [if_neg hfailed] at hprepare
    -- a game stream is opened or accepted
    obtain ⟨answer, hanswer, hresult⟩ := Option.bind_eq_some_iff.mp hprepare
    have hfound := acquireGame_inv env fuel (hinv _) t.role answer hanswer
    rw [← Option.some.inj hresult, if_pos (not_not.mp hgame)]
    refine ⟨hfound.bound, hfound.nodup, hfound.handedNodup, hfound.apart, hfound.live,
      hfound.below, ?_, hfound.settled⟩
    intro id hid
    have hid : answer.1 = some id := hid
    rw [hid]
    exact List.mem_cons_self

theorem read_inv (h : t.Inv handed) (id len : ℕ) (hid : id ∈ handed) :
    (t.read env id len).2.2.Inv handed := by
  obtain ⟨stream, hstream⟩ := (h.live id).mpr (Or.inr hid)
  have hset := h.setStream id (prefaceWrite env stream t.quic).2.1 (Or.inr hid)
    (fun hpending => absurd hid (h.apart id hpending))
  unfold Table.read
  rw [hstream]
  dsimp only
  split_ifs
  · exact hset.withQuic _
  · exact hset.withQuic _

theorem write_inv (h : t.Inv handed) (id : ℕ) (buf : List UInt8) (hid : id ∈ handed) :
    (t.write env id buf).2.2.Inv handed := by
  obtain ⟨stream, hstream⟩ := (h.live id).mpr (Or.inr hid)
  have hset := h.setStream id (prefaceWrite env stream t.quic).2.1 (Or.inr hid)
    (fun hpending => absurd hid (h.apart id hpending))
  unfold Table.write
  rw [hstream]
  dsimp only
  split_ifs
  · exact hset.withQuic _
  · exact hset.withQuic _
  · exact hset.withQuic _

/-- The streams that have been handed out after a call. -/
def handedAfter (handed : List ℕ) (call : Call) (answer : Answer) : List ℕ :=
  match call with
  | .destroy id => handed.erase id
  | _ => answer.stream.toList ++ handed

/-- Streams that are written to or read from have been handed out; those that are destroyed may also
be pending. -/
def Table.Allowed (t : Table Ssl σ) (handed : List ℕ) : Call → Prop
  | .read id _ => id ∈ handed
  | .write id _ => id ∈ handed
  | .destroy id => id ∈ t.pending ∨ id ∈ handed
  | _ => True

theorem perform_inv (fuel : ℕ) (h : t.Inv handed) (call : Call) (hallowed : t.Allowed handed call)
    (result : Answer × Table Ssl σ) (hcall : t.perform env fuel call = some result) :
    result.2.Inv (handedAfter handed call result.1) := by
  cases call with
  | poll =>
    obtain ⟨t₁, hpoll, hresult⟩ := Option.bind_eq_some_iff.mp hcall
    rw [← Option.some.inj hresult]
    exact poll_inv env fuel t₁ h hpoll
  | accept kind =>
    obtain ⟨answer, haccept, hresult⟩ := Option.bind_eq_some_iff.mp hcall
    rw [← Option.some.inj hresult]
    exact accept_inv env fuel h kind answer haccept
  | prepare =>
    obtain ⟨answer, hprepare, hresult⟩ := Option.bind_eq_some_iff.mp hcall
    rw [← Option.some.inj hresult]
    exact prepare_inv env fuel h answer hprepare
  | openStream kind =>
    rw [← Option.some.inj hcall]
    exact open_inv env h kind
  | read id len =>
    rw [← Option.some.inj hcall]
    exact read_inv env h id len hallowed
  | write id buf =>
    rw [← Option.some.inj hcall]
    exact write_inv env h id buf hallowed
  | destroy id =>
    obtain ⟨stream, hstream⟩ := (h.live id).mpr hallowed
    rw [perform_destroy env fuel id stream hstream] at hcall
    rw [← Option.some.inj hcall]
    exact (h.remove id).withQuic _

end Steps

section Runs

/-- A connection that has no streams yet. -/
def State.start (transport : SocketTransport) (role : SocketRole) (connectionIdFinal : Bool)
    (quic : σ) : State Ssl σ where
  sc := { transport, role, connectionIdFinal, gameStream := none, pendingStreams := none,
          pendingStreamCount := 0 }
  streams := fun _ => none
  allocated := 0
  quic := quic

/-- The calls that may be made when the streams `handed` have been handed out. -/
def Allowed (st : State Ssl σ) (handed : List ℕ) : Call → Prop
  | .read id _ => id ∈ handed
  | .write id _ => id ∈ handed
  | .destroy id => id ∈ handed ∨ ∃ pending, Listed st pending ∧ id ∈ pending
  | _ => True

variable (env : Quic Ssl σ)

/-- The states of a connection that a sequence of calls leads to, with the streams that have been
handed out and not been destroyed. -/
inductive Run : State Ssl σ → List ℕ → Prop where
  | start (transport : SocketTransport) (role : SocketRole) (connectionIdFinal : Bool) (quic : σ) :
      Run (State.start transport role connectionIdFinal quic) []
  | call {st st' : State Ssl σ} {handed : List ℕ} {fuel : ℕ} {call : Call} {answer : Answer}
      (hrun : Run st handed) (hallowed : Allowed st handed call)
      (hcall : perform env fuel st call = .ok (answer, st')) :
      Run st' (handedAfter handed call answer)

theorem represents_start (transport : SocketTransport) (role : SocketRole)
    (connectionIdFinal : Bool) (quic : σ) :
    Represents (State.start transport role connectionIdFinal quic : State Ssl σ)
      { transport, role, connectionIdFinal, gameStream := none, pending := [],
        streams := fun _ => none, allocated := 0, quic } := by
  refine ⟨rfl, rfl, rfl, ?_, ?_⟩
  · intro id stream hstream
    cases hstream
  · intro id stream hstream
    cases hstream

theorem inv_start (transport : SocketTransport) (role : SocketRole) (connectionIdFinal : Bool)
    (quic : σ) :
    ({ transport, role, connectionIdFinal, gameStream := none, pending := [],
       streams := fun _ => none, allocated := 0, quic } : Table Ssl σ).Inv [] := by
  refine ⟨Nat.zero_le _, List.nodup_nil, List.nodup_nil, ?_, ?_, ?_, ?_, ?_⟩
  · intro id hid
    exact absurd hid List.not_mem_nil
  · intro id
    apply iff_of_false
    · intro h
      obtain ⟨_, hstream⟩ := h
      cases hstream
    · intro h
      exact h.elim List.not_mem_nil List.not_mem_nil
  · intro id stream hstream
    cases hstream
  · intro id hid
    cases hid
  · intro id hid
    exact absurd hid List.not_mem_nil

theorem Allowed.table (hrep : Represents st t) {call : Call} (h : Allowed st handed call) :
    t.Allowed handed call := by
  cases call with
  | destroy id =>
    rcases h with hin | ⟨pending, hlisted, hin⟩
    · exact Or.inr hin
    · left
      have hsame := IntrusiveList.Seg.unique (fun _ _ => Option.some.inj)
        (fun _ _ _ => Option.some_ne_none _) hrep.listed hlisted
      rwa [hsame]
  | read => exact h
  | write => exact h
  | poll => trivial
  | accept => trivial
  | prepare => trivial
  | openStream => trivial

/-- What is allowed is about streams that exist. -/
theorem Table.Inv.target_live (h : t.Inv handed) {call : Call} (hallowed : t.Allowed handed call)
    (id : ℕ) (hid : call.target = some id) : ∃ stream, t.streams id = some stream := by
  cases call with
  | read target len =>
    rw [← Option.some.inj hid]
    exact (h.live target).mpr (Or.inr hallowed)
  | write target buf =>
    rw [← Option.some.inj hid]
    exact (h.live target).mpr (Or.inr hallowed)
  | destroy target =>
    rw [← Option.some.inj hid]
    exact (h.live target).mpr hallowed
  | poll => cases hid
  | accept => cases hid
  | prepare => cases hid
  | openStream => cases hid

/-- A call on the memory comes from a call on the table. -/
theorem perform_ok {fuel : ℕ} {call : Call} {answer : Answer} {st' : State Ssl σ}
    (hrep : Represents st t) (h : t.Inv handed) (hallowed : t.Allowed handed call)
    (hcall : perform env fuel st call = .ok (answer, st')) :
    ∃ t', t.perform env fuel call = some (answer, t') ∧ Represents st' t' := by
  have hagrees := perform_agrees env fuel hrep call (h.target_live hallowed)
  rw [hcall] at hagrees
  cases htable : t.perform env fuel call with
  | none =>
    rw [htable] at hagrees
    exact hagrees.elim
  | some result =>
    rw [htable] at hagrees
    obtain ⟨hanswer, hrep'⟩ := hagrees
    have hanswer : answer = result.1 := hanswer
    exact ⟨result.2, by rw [hanswer], hrep'⟩

theorem Run.represents (h : Run env st handed) : ∃ t, Represents st t ∧ t.Inv handed := by
  induction h with
  | start transport role connectionIdFinal quic =>
    exact ⟨_, represents_start transport role connectionIdFinal quic, inv_start _ _ _ _⟩
  | call hrun hallowed hcall ih =>
    obtain ⟨t, hrep, hinv⟩ := ih
    have hallowed := hallowed.table hrep
    obtain ⟨t', htable, hrep'⟩ := perform_ok env hrep hinv hallowed hcall
    exact ⟨t', hrep', perform_inv env _ hinv _ hallowed _ htable⟩

/-- The number of streams that are still offered. -/
structure Offers (offers : σ → ℕ) : Prop where
  accept : ∀ s ssl s', env.acceptStream s = (some ssl, s') → offers s' < offers s
  now : ∀ s, offers (env.now s).2 ≤ offers s
  read : ∀ s ssl size, offers (env.readEx s ssl size).2 ≤ offers s
  reset : ∀ s ssl errorCode, offers (env.reset s ssl errorCode) ≤ offers s
  free : ∀ s ssl, offers (env.free s ssl) ≤ offers s

variable {env}

theorem Offers.prefaceRead {offers : σ → ℕ} (h : Offers env offers) {stream stream' : SocketStream Ssl}
    {s s' : σ} {complete : Bool} (hread : PrefaceRead env stream s complete stream' s') :
    offers s' ≤ offers s := by
  have hanswer : ∀ s ssl size answer s', env.readEx s ssl size = (answer, s') →
      offers s' ≤ offers s := by
    intro s ssl size answer s' hanswer
    have hle := h.read s ssl size
    rwa [hanswer] at hle
  induction hread with
  | full => exact Nat.le_refl _
  | more _ hread _ _ ih => exact Nat.le_trans ih (hanswer _ _ _ _ _ hread)
  | wait _ hread => exact hanswer _ _ _ _ _ hread
  | fatal _ hread => exact hanswer _ _ _ _ _ hread

theorem Offers.pollIncoming {offers : σ → ℕ} (h : Offers env offers) (t : Table Ssl σ) (ssl : Ssl) :
    offers (t.pollIncoming env ssl).quic ≤ offers t.quic := by
  have hread := h.prefaceRead
    (prefaceRead_spec env (incomingStream ssl (env.now t.quic).1) (env.now t.quic).2)
  unfold Table.pollIncoming
  dsimp only
  split_ifs
  · calc offers _
        ≤ offers (env.reset _ _ _) := h.free _ _
      _ ≤ offers _ := h.reset _ _ _
      _ ≤ offers (env.now t.quic).2 := hread
      _ ≤ offers t.quic := h.now _
  · exact Nat.le_trans hread (h.now _)

/-- A poll comes back if it is not offered streams forever. -/
theorem poll_returns {offers : σ → ℕ} (hoffers : Offers env offers) (h : Run env st handed) :
    ∃ fuel st', socketStreamPollIncoming env fuel st = .ok st' := by
  obtain ⟨t, hrep, _⟩ := h.represents
  have hloop : ∀ fuel (t : Table Ssl σ), offers t.quic ≤ fuel →
      ∃ t', t.pollAccept env fuel = some t' := by
    intro fuel
    induction fuel with
    | zero =>
      intro t hfuel
      rw [Table.pollAccept]
      split_ifs
      · rcases hoffer : env.acceptStream t.quic with ⟨offer, quic⟩
        cases offer with
        | none => exact ⟨_, rfl⟩
        | some ssl =>
          have hless := hoffers.accept _ _ _ hoffer
          omega
      · exact ⟨_, rfl⟩
    | succ fuel ih =>
      intro t hfuel
      rw [Table.pollAccept]
      split_ifs
      · rcases hoffer : env.acceptStream t.quic with ⟨offer, quic⟩
        cases offer with
        | none => exact ⟨_, rfl⟩
        | some ssl =>
          apply ih
          have hless := hoffers.accept _ _ _ hoffer
          have hkept := hoffers.pollIncoming { t with quic } ssl
          have hkept : offers (Table.pollIncoming env { t with quic } ssl).quic ≤ offers quic := hkept
          omega
      · exact ⟨_, rfl⟩
  obtain ⟨t', hpoll⟩ := hloop (offers (t.retry env).quic) (t.retry env) (Nat.le_refl _)
  have hagrees := poll_agrees env (offers (t.retry env).quic) hrep
  unfold Table.poll at hagrees
  rw [hpoll] at hagrees
  cases hresult : socketStreamPollIncoming env (offers (t.retry env).quic) st with
  | ok st' => exact ⟨_, st', hresult⟩
  | error fault =>
    rw [hresult] at hagrees
    exact hagrees.elim

/-- The network offers the streams that have arrived. -/
theorem Net.offers : Offers Net.acceptor fun s => s.arrived.length := by
  refine ⟨?_, fun s => Nat.le_refl _, fun s _ _ => Nat.le_refl _, fun s _ _ => Nat.le_refl _,
    fun s _ => Nat.le_refl _⟩
  intro s ssl s' hoffer
  have hoffer : s.acceptStream = (some ssl, s') := hoffer
  unfold Net.acceptStream at hoffer
  split at hoffer
  · cases hoffer
  · split at hoffer
    · cases hoffer
    · rename_i found hfound
      obtain ⟨hssl, hs⟩ := Prod.mk.inj hoffer
      have hmem : found ∈ s.arrived := List.mem_of_getElem? hfound
      rw [← hs]
      change (s.arrived.erase found).length < s.arrived.length
      have hpos := List.length_pos_of_mem hmem
      rw [List.length_erase_of_mem hmem]
      omega

variable (env)

/-- Over any run the list of pending streams has the length that is counted, no stream twice and
not more than allowed; each stream that was allocated is pending, handed out or destroyed, and only
one of these; the pending streams are settled; and no call fails an assertion or follows a dangling
pointer. -/
theorem pending_streams_sound (h : Run env st handed) :
    ∃ pending, Listed st pending ∧ pending.Nodup ∧ st.sc.pendingStreamCount = pending.length ∧
      pending.length ≤ socketQuicPendingStreamMax ∧
      (∀ id, id < st.allocated →
        (id ∈ pending ∧ id ∉ handed ∧ st.streams id ≠ none) ∨
        (id ∉ pending ∧ id ∈ handed ∧ st.streams id ≠ none) ∨
        (id ∉ pending ∧ id ∉ handed ∧ st.streams id = none)) ∧
      (∀ id ∈ pending, ∀ stream, st.streams id = some stream → Settled stream) ∧
      ∀ fuel call fault, Allowed st handed call → perform env fuel st call = .error fault →
        fault = .fuel := by
  obtain ⟨t, hrep, hinv⟩ := h.represents
  have hlive : ∀ id, st.streams id = none ↔ ¬(id ∈ t.pending ∨ id ∈ handed) := by
    intro id
    rw [← hinv.live id, hrep.streams]
    cases hstream : st.streams id with
    | none => exact iff_of_true rfl (fun ⟨_, hsome⟩ => nomatch hsome)
    | some stream => exact iff_of_false (Option.some_ne_none _) (fun hno => hno ⟨_, rfl⟩)
  refine ⟨t.pending, hrep.listed, hinv.nodup, hrep.count, hinv.bound, ?_, ?_, ?_⟩
  · intro id _
    by_cases hpending : id ∈ t.pending
    · have hnone : st.streams id ≠ none := fun hnone => (hlive id).mp hnone (Or.inl hpending)
      exact Or.inl ⟨hpending, hinv.apart id hpending, hnone⟩
    by_cases hhanded : id ∈ handed
    · have hnone : st.streams id ≠ none := fun hnone => (hlive id).mp hnone (Or.inr hhanded)
      exact Or.inr (Or.inl ⟨hpending, hhanded, hnone⟩)
    · have hnone := (hlive id).mpr fun hin => hin.elim hpending hhanded
      exact Or.inr (Or.inr ⟨hpending, hhanded, hnone⟩)
  · intro id hid stream hstream
    have hunlinked : t.streams id = some stream.unlinked := by
      rw [hrep.streams, hstream]
      rfl
    have hsettled := hinv.settled id hid _ hunlinked
    exact hsettled
  · intro fuel call fault hallowed hcall
    have hagrees := perform_agrees env fuel hrep call (hinv.target_live (hallowed.table hrep))
    rw [hcall] at hagrees
    cases htable : t.perform env fuel call with
    | none =>
      rw [htable] at hagrees
      exact hagrees
    | some result =>
      rw [htable] at hagrees
      exact hagrees.elim

/-- The answer of a call that returns, and the state after it. -/
def after (fuel : ℕ) (st : State Ssl σ) (call : Call) : Answer × State Ssl σ :=
  match perform env fuel st call with
  | .ok result => result
  | .error _ => ({}, st)

theorem perform_after (fuel : ℕ) (st : State Ssl σ) (call : Call)
    (h : (perform env fuel st call).isOk = true) :
    perform env fuel st call = .ok ((after env fuel st call).1, (after env fuel st call).2) := by
  unfold after
  cases hcall : perform env fuel st call with
  | ok result => rfl
  | error fault =>
    rw [hcall] at h
    cases h

end Runs

/-- A network on which the preface of a stream arrives in two pieces. -/
def Net.twoPieces : Net :=
  { schedule := [some 0, some 3, some 4], arrived := [0],
    up := fun _ => [0x41, 0x54, 0x52, 0x4e, 1, 0, 0, 1] }

/-- A connection with one pending stream. -/
theorem pending_streams_sound_split :
    ∃ st : State ℕ Net, Run Net.acceptor st [] ∧ st.sc.pendingStreamCount = 1 ∧
      st.sc.pendingStreamCount ≤ socketQuicPendingStreamMax := by
  let start : State ℕ Net := State.start .quicConnection .server true Net.twoPieces
  let polled : State ℕ Net := (after Net.acceptor 2 start .poll).2
  have hstart : Run Net.acceptor start [] := .start .quicConnection .server true Net.twoPieces
  have hok : (perform Net.acceptor 2 start .poll).isOk = true := by decide +kernel
  have hanswer : (after Net.acceptor 2 start .poll).1 = {} := by decide +kernel
  have hcall : perform Net.acceptor 2 start .poll = .ok ({}, polled) := by
    have hafter := perform_after Net.acceptor 2 start .poll hok
    rw [hanswer] at hafter
    exact hafter
  have hallowed : Allowed start [] .poll := trivial
  have hrun : Run Net.acceptor polled [] := hstart.call hallowed hcall
  have hcount : polled.sc.pendingStreamCount = 1 := by decide +kernel
  obtain ⟨pending, _, _, hlength, hbound, _⟩ := pending_streams_sound Net.acceptor hrun
  rw [← hlength] at hbound
  exact ⟨polled, hrun, hcount, hbound⟩

end LibAtrinik.Stream

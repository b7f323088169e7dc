import LibAtrinik.StreamPending

namespace LibAtrinik.Stream

variable {Ssl σ : Type} {st st' : State Ssl σ} {t t' : Table Ssl σ} {handed : List ℕ}

section Condition

variable (env : Quic Ssl σ)

/-- Among the streams that are offered while there is room for pending ones is one whose first reads
deliver a whole preface of a game stream. -/
inductive OffersGame : σ → ℕ → Prop where
  | game {s s₁ : σ} {count : ℕ} {ssl : Ssl} (hroom : count < socketQuicPendingStreamMax)
      (hoffer : env.acceptStream s = (some ssl, s₁))
      (hread : (firstRead env s₁ ssl).1 = true ∧ (firstRead env s₁ ssl).2.1.kind = .game) :
      OffersGame s count
  | kept {s s₁ : σ} {count : ℕ} {ssl : Ssl} (hroom : count < socketQuicPendingStreamMax)
      (hoffer : env.acceptStream s = (some ssl, s₁))
      (hread : ¬((firstRead env s₁ ssl).1 = false ∧ (firstRead env s₁ ssl).2.1.prefacePos = 8))
      (hlater : OffersGame (firstRead env s₁ ssl).2.2 (count+1)) : OffersGame s count
  | rejected {s s₁ : σ} {count : ℕ} {ssl : Ssl} (hroom : count < socketQuicPendingStreamMax)
      (hoffer : env.acceptStream s = (some ssl, s₁))
      (hread : (firstRead env s₁ ssl).1 = false ∧ (firstRead env s₁ ssl).2.1.prefacePos = 8)
      (hlater : OffersGame (env.free (env.reset (firstRead env s₁ ssl).2.2
        (firstRead env s₁ ssl).2.1.ssl socketStreamErrorPreface)
          (firstRead env s₁ ssl).2.1.ssl) count) : OffersGame s count

/-- This is so when a poll has gone over the pending streams. -/
def PollOffersGame (st : State Ssl σ) : Prop :=
  ∃ st₁, pollPending env (env.now st.quic).1 st.allocated st.sc.pendingStreams
      { st with quic := (env.now st.quic).2 } = .ok st₁ ∧
    OffersGame env st₁.quic st₁.sc.pendingStreamCount

end Condition

/-- The pending streams of kind game are among those whose preface was complete before. -/
def OnlyOldGames (old : ℕ → Option (SocketStream Ssl)) (t : Table Ssl σ) : Prop :=
  ∀ id ∈ t.pending, ∀ stream, t.streams id = some stream → stream.kind = .game →
    ∃ before, old id = some before ∧ before.prefacePos = 8

variable (env : Quic Ssl σ)

/-- The first loop keeps no game stream whose preface it completes. -/
theorem pollStream_onlyOldGames (old : ℕ → Option (SocketStream Ssl)) (now : UInt64) (id : ℕ)
    (hinv : t.Inv handed) (hgame : t.gameStream ≠ none) (hid : id ∈ t.pending)
    (h : OnlyOldGames old t) : OnlyOldGames old (t.pollStream env now id) := by
  obtain ⟨stream, hstream⟩ := (hinv.live id).mpr (Or.inl hid)
  rcases pollStream_cases env now t id stream hstream with
    ⟨_, hsame⟩ | ⟨_, _, hrejected⟩ | ⟨hdue, hrefused, hkept⟩
  · rwa [hsame]
  · rw [hrejected, received_reject]
    intro other hother s hs hkind
    have hne : other ≠ id := by
      intro hsame
      exact hinv.nodup.not_mem_erase (hsame ▸ hother)
    have hother : other ∈ t.pending.erase id := hother
    change Function.update t.streams id none other = some s at hs
    rw [Function.update_of_ne hne] at hs
    exact h other (List.mem_of_mem_erase hother) s hs hkind
  · rw [hkept]
    intro other hother s hs hkind
    change Function.update t.streams id _ other = some s at hs
    by_cases hsame : other = id
    · rw [hsame, Function.update_self] at hs
      have hs := Option.some.inj hs
      rw [← hs] at hkind
      have hread := prefaceRead_spec env stream t.quic
      rcases hread.outcome (Nat.le_of_lt hdue.2) with ⟨_, hfull, _⟩ | ⟨_, _, hold⟩
      · exact absurd (Or.inl ⟨hfull, Or.inr ⟨hkind, hgame⟩⟩) hrefused
      · rw [hold, hdue.1] at hkind
        cases hkind
    · rw [Function.update_of_ne hsame] at hs
      exact h other hother s hs hkind

theorem gameStream_pollStream (now : UInt64) (id : ℕ) (hinv : t.Inv handed) (hid : id ∈ t.pending) :
    (t.pollStream env now id).gameStream = t.gameStream := by
  obtain ⟨stream, hstream⟩ := (hinv.live id).mpr (Or.inl hid)
  rcases pollStream_cases env now t id stream hstream with
    ⟨_, hsame⟩ | ⟨_, _, hrejected⟩ | ⟨_, _, hkept⟩
  · rw [hsame]
  · rw [hrejected, received_reject]
    apply if_neg
    intro hgame
    exact hinv.apart id hid (hinv.game id hgame)
  · rw [hkept]
    rfl

theorem allocated_pollStream (now : UInt64) (id : ℕ) :
    (t.pollStream env now id).allocated = t.allocated := by
  unfold Table.pollStream
  split
  · rfl
  · dsimp only
    split_ifs <;> rfl

theorem retry_onlyOldGames (hinv : t.Inv handed) (hgame : t.gameStream ≠ none) :
    (t.retry env).Inv handed ∧ OnlyOldGames t.streams (t.retry env) ∧
      (t.retry env).allocated = t.allocated := by
  have hstart : OnlyOldGames t.streams ({ t with quic := (env.now t.quic).2 } : Table Ssl σ) := by
    intro id hid stream hstream hkind
    refine ⟨stream, hstream, ?_⟩
    rcases hinv.settled id hid stream hstream with ⟨hunknown, _⟩ | ⟨hfull, _⟩
    · rw [hunknown] at hkind
      cases hkind
    · exact hfull
  have hloop := retry_rule env
    (fun t' => t'.Inv handed ∧ t'.gameStream = t.gameStream ∧ OnlyOldGames t.streams t' ∧
      t'.allocated = t.allocated) (env.now t.quic).1 (by
      intro t₁ id h hid
      obtain ⟨hinv₁, hgame₁, honly, hallocated⟩ := h
      refine ⟨pollStream_inv env _ hinv₁ id hid, ?_, ?_, ?_⟩
      · rw [gameStream_pollStream env _ id hinv₁ hid, hgame₁]
      · exact pollStream_onlyOldGames env t.streams _ id hinv₁ (hgame₁ ▸ hgame) hid honly
      · rw [allocated_pollStream, hallocated])
    t.pending hinv.nodup (fun _ hid => hid) (t := { t with quic := (env.now t.quic).2 })
    ⟨hinv.withQuic _, rfl, hstart, rfl⟩
  exact ⟨hloop.1, hloop.2.2.1, hloop.2.2.2⟩

/-- A stream that is kept is the first of the pending ones. -/
theorem pollIncoming_kept (t : Table Ssl σ) (ssl : Ssl)
    (h : ¬((firstRead env t.quic ssl).1 = false ∧ (firstRead env t.quic ssl).2.1.prefacePos = 8)) :
    (t.pollIncoming env ssl).pending = t.allocated :: t.pending ∧
      (t.pollIncoming env ssl).streams =
        Function.update t.streams t.allocated (some (firstRead env t.quic ssl).2.1) ∧
      (t.pollIncoming env ssl).quic = (firstRead env t.quic ssl).2.2 ∧
      (t.pollIncoming env ssl).allocated = t.allocated+1 := by
  have hkept : t.pollIncoming env ssl = ({ t.allocate env ssl .unknown Preface.zero false with
      pending := t.allocated :: t.pending } : Table Ssl σ).received t.allocated
        (firstRead env t.quic ssl) := if_neg h
  rw [hkept]
  exact ⟨rfl, Function.update_idem _ _ _, rfl, rfl⟩

/-- A stream that is rejected is gone. -/
theorem pollIncoming_rejected (t : Table Ssl σ) (ssl : Ssl)
    (h : (firstRead env t.quic ssl).1 = false ∧ (firstRead env t.quic ssl).2.1.prefacePos = 8) :
    (t.pollIncoming env ssl).pending = t.pending ∧
      (t.pollIncoming env ssl).streams = Function.update t.streams t.allocated none ∧
      (t.pollIncoming env ssl).quic = env.free (env.reset (firstRead env t.quic ssl).2.2
        (firstRead env t.quic ssl).2.1.ssl socketStreamErrorPreface)
          (firstRead env t.quic ssl).2.1.ssl ∧
      (t.pollIncoming env ssl).allocated = t.allocated+1 := by
  have hrejected : t.pollIncoming env ssl =
      (({ t.allocate env ssl .unknown Preface.zero false with
        pending := t.allocated :: t.pending } : Table Ssl σ).received t.allocated
          (firstRead env t.quic ssl)).reject env t.allocated (firstRead env t.quic ssl).2.1.ssl
            socketStreamErrorPreface := if_pos h
  rw [hrejected, received_reject]
  exact ⟨List.erase_cons_head _ _, Function.update_idem _ _ _, rfl, rfl⟩

theorem pollAccept_keeps (fuel : ℕ) (id : ℕ) (stream : SocketStream Ssl) (hinv : t.Inv handed)
    (hid : id ∈ t.pending) (hstream : t.streams id = some stream)
    (hloop : t.pollAccept env fuel = some t') : id ∈ t'.pending ∧ t'.streams id = some stream := by
  have hrule := pollAccept_rule env
    (fun t => t.Inv handed ∧ id ∈ t.pending ∧ t.streams id = some stream)
    (fun t quic h _ => ⟨h.1.withQuic quic, h.2⟩) (by
      intro t ssl quic h hroom _
      obtain ⟨hinv, hid, hstream⟩ := h
      have hne : id ≠ t.allocated := Nat.ne_of_lt (hinv.below id stream hstream)
      refine ⟨pollIncoming_inv env (hinv.withQuic quic) hroom ssl, ?_⟩
      by_cases hbad : (firstRead env quic ssl).1 = false ∧
          (firstRead env quic ssl).2.1.prefacePos = 8
      · obtain ⟨hpending, hstreams, _⟩ := pollIncoming_rejected env { t with quic } ssl hbad
        rw [hpending, hstreams, Function.update_of_ne hne]
        exact ⟨hid, hstream⟩
      · obtain ⟨hpending, hstreams, _⟩ := pollIncoming_kept env { t with quic } ssl hbad
        rw [hpending, hstreams, Function.update_of_ne hne]
        exact ⟨List.mem_cons_of_mem _ hid, hstream⟩)
    fuel t' ⟨hinv, hid, hstream⟩ hloop
  exact hrule.2

/-- Without room or without an offer nothing is accepted. -/
theorem not_offersGame (s : σ) (count : ℕ)
    (h : ∀ ssl s₁, count < socketQuicPendingStreamMax → env.acceptStream s ≠ (some ssl, s₁)) :
    ¬OffersGame env s count := by
  intro hoffers
  cases hoffers with
  | game hroom hoffer => exact h _ _ hroom hoffer
  | kept hroom hoffer => exact h _ _ hroom hoffer
  | rejected hroom hoffer => exact h _ _ hroom hoffer

section Offered

variable {s s₁ : σ} {count : ℕ} {ssl : Ssl}

/-- After a stream that is rejected the rest of the loop decides. -/
theorem offersGame_rejected_iff (hroom : count < socketQuicPendingStreamMax)
    (hoffer : env.acceptStream s = (some ssl, s₁))
    (hbad : (firstRead env s₁ ssl).1 = false ∧ (firstRead env s₁ ssl).2.1.prefacePos = 8) :
    OffersGame env s count ↔ OffersGame env (env.free (env.reset (firstRead env s₁ ssl).2.2
      (firstRead env s₁ ssl).2.1.ssl socketStreamErrorPreface)
        (firstRead env s₁ ssl).2.1.ssl) count := by
  refine ⟨fun hoffers => ?_, .rejected hroom hoffer hbad⟩
  cases hoffers with
  | game _ hoffer' hread =>
    rw [hoffer] at hoffer'
    cases hoffer'
    exact absurd (hread.1.symm.trans hbad.1) (by decide)
  | kept _ hoffer' hread =>
    rw [hoffer] at hoffer'
    cases hoffer'
    exact absurd hbad hread
  | rejected _ hoffer' _ hlater =>
    rw [hoffer] at hoffer'
    cases hoffer'
    exact hlater

/-- So it does after a stream that is kept, unless it is a game stream. -/
theorem offersGame_kept_iff (hroom : count < socketQuicPendingStreamMax)
    (hoffer : env.acceptStream s = (some ssl, s₁))
    (hgood : ¬((firstRead env s₁ ssl).1 = false ∧ (firstRead env s₁ ssl).2.1.prefacePos = 8))
    (hkind : (firstRead env s₁ ssl).2.1.kind ≠ .game) :
    OffersGame env s count ↔ OffersGame env (firstRead env s₁ ssl).2.2 (count+1) := by
  refine ⟨fun hoffers => ?_, .kept hroom hoffer hgood⟩
  cases hoffers with
  | game _ hoffer' hread =>
    rw [hoffer] at hoffer'
    cases hoffer'
    exact absurd hread.2 hkind
  | kept _ hoffer' _ hlater =>
    rw [hoffer] at hoffer'
    cases hoffer'
    exact hlater
  | rejected _ hoffer' hread =>
    rw [hoffer] at hoffer'
    cases hoffer'
    exact absurd hread hgood

theorem allocated_pollIncoming (t : Table Ssl σ) (ssl : Ssl) :
    (t.pollIncoming env ssl).allocated = t.allocated+1 := by
  by_cases hbad : (firstRead env t.quic ssl).1 = false ∧
      (firstRead env t.quic ssl).2.1.prefacePos = 8
  · exact (pollIncoming_rejected env t ssl hbad).2.2.2
  · exact (pollIncoming_kept env t ssl hbad).2.2.2

theorem OnlyOldGames.rejected {old : ℕ → Option (SocketStream Ssl)} (h : OnlyOldGames old t)
    (hinv : t.Inv handed) (hbad : (firstRead env t.quic ssl).1 = false ∧
      (firstRead env t.quic ssl).2.1.prefacePos = 8) :
    OnlyOldGames old (t.pollIncoming env ssl) := by
  obtain ⟨hpending, hstreams, _⟩ := pollIncoming_rejected env t ssl hbad
  intro id hid stream hstream hkind
  rw [hpending] at hid
  have hne : id ≠ t.allocated := fun hsame => hinv.fresh.1 (hsame ▸ hid)
  rw [hstreams, Function.update_of_ne hne] at hstream
  exact h id hid stream hstream hkind

theorem OnlyOldGames.kept {old : ℕ → Option (SocketStream Ssl)} (h : OnlyOldGames old t)
    (hinv : t.Inv handed) (hgood : ¬((firstRead env t.quic ssl).1 = false ∧
      (firstRead env t.quic ssl).2.1.prefacePos = 8))
    (hkind : (firstRead env t.quic ssl).2.1.kind ≠ .game) :
    OnlyOldGames old (t.pollIncoming env ssl) := by
  obtain ⟨hpending, hstreams, _⟩ := pollIncoming_kept env t ssl hgood
  intro id hid stream hstream hgame
  rw [hpending] at hid
  rcases List.mem_cons.mp hid with hfirst | hid
  · rw [hfirst, hstreams, Function.update_self] at hstream
    rw [← Option.some.inj hstream] at hgame
    exact absurd hgame hkind
  · have hne : id ≠ t.allocated := fun hsame => hinv.fresh.1 (hsame ▸ hid)
    rw [hstreams, Function.update_of_ne hne] at hstream
    exact h id hid stream hstream hgame

/-- A game stream that is kept stays pending to the end of the loop. -/
theorem not_onlyOldGames {old : ℕ → Option (SocketStream Ssl)} (fuel : ℕ)
    (hold : old t.allocated = none) (hinv : (t.pollIncoming env ssl).Inv handed)
    (hgood : ¬((firstRead env t.quic ssl).1 = false ∧
      (firstRead env t.quic ssl).2.1.prefacePos = 8))
    (hkind : (firstRead env t.quic ssl).2.1.kind = .game)
    (hloop : (t.pollIncoming env ssl).pollAccept env fuel = some t') : ¬OnlyOldGames old t' := by
  obtain ⟨hpending, hstreams, _⟩ := pollIncoming_kept env t ssl hgood
  have hfirst : t.allocated ∈ (t.pollIncoming env ssl).pending := by
    rw [hpending]
    exact List.mem_cons_self
  have hnew : (t.pollIncoming env ssl).streams t.allocated = some (firstRead env t.quic ssl).2.1 := by
    rw [hstreams]
    exact Function.update_self _ _ _
  obtain ⟨hin, hstream⟩ := pollAccept_keeps env fuel t.allocated _ hinv hfirst hnew hloop
  intro honly
  obtain ⟨before, hbefore, _⟩ := honly _ hin _ hstream hkind
  rw [hold] at hbefore
  cases hbefore

/-- The kind of a stream is known once its preface is complete. -/
theorem firstRead_complete (hkind : (firstRead env s₁ ssl).2.1.kind = .game) :
    (firstRead env s₁ ssl).1 = true := by
  have hspec := prefaceRead_spec env (incomingStream ssl (env.now s₁).1) (env.now s₁).2
  rcases hspec.outcome (Nat.zero_le 8) with ⟨hcomplete, _⟩ | ⟨_, _, hunknown⟩
  · exact hcomplete
  · have hsame : SocketStreamKind.game = .unknown := hkind.symm.trans hunknown
    cases hsame

end Offered

/-- The second loop keeps game streams exactly if such ones are offered. -/
theorem pollAccept_onlyOldGames_iff (fuel : ℕ) (old : ℕ → Option (SocketStream Ssl))
    (hinv : t.Inv handed) (hold : ∀ id, t.allocated ≤ id → old id = none) (h : OnlyOldGames old t)
    (hloop : t.pollAccept env fuel = some t') :
    OnlyOldGames old t' ↔ ¬OffersGame env t.quic t.pending.length := by
  -- the loop ends when no more streams may be pending, or when none is offered
  have hstop : ∀ {t : Table Ssl σ}, OnlyOldGames old t →
      ¬t.pending.length < socketQuicPendingStreamMax →
      (OnlyOldGames old t ↔ ¬OffersGame env t.quic t.pending.length) := by
    intro t h hfull
    exact iff_of_true h (not_offersGame env _ _ fun _ _ hroom => absurd hroom hfull)
  have hnothing : ∀ {t : Table Ssl σ} {quic : σ}, OnlyOldGames old t →
      env.acceptStream t.quic = (none, quic) →
      (OnlyOldGames old { t with quic } ↔ ¬OffersGame env t.quic t.pending.length) := by
    intro t quic h hoffer
    refine iff_of_true h (not_offersGame env _ _ fun ssl s₁ _ hsome => ?_)
    rw [hoffer] at hsome
    cases hsome
  induction fuel generalizing t with
  | zero =>
    rw [Table.pollAccept] at hloop
    split_ifs at hloop with hroom
    · rcases hoffer : env.acceptStream t.quic with ⟨offer, quic⟩
      rw [hoffer] at hloop
      cases offer with
      | none =>
        rw [← Option.some.inj hloop]
        exact hnothing h hoffer
      | some ssl => cases hloop
    · rw [← Option.some.inj hloop]
      exact hstop h hroom
  | succ fuel ih =>
    rw [Table.pollAccept] at hloop
    split_ifs at hloop with hroom
    swap
    · rw [← Option.some.inj hloop]
      exact hstop h hroom
    rcases hoffer : env.acceptStream t.quic with ⟨offer, quic⟩
    rw [hoffer] at hloop
    cases offer with
    | none =>
      rw [← Option.some.inj hloop]
      exact hnothing h hoffer
    | some ssl =>
      have hloop : (Table.pollIncoming env { t with quic } ssl).pollAccept env fuel = some t' := hloop
      have hinvq := hinv.withQuic quic
      have hinv₁ := pollIncoming_inv env hinvq hroom ssl
      have hold₁ : ∀ id, (Table.pollIncoming env { t with quic } ssl).allocated ≤ id →
          old id = none := by
        intro id hid
        rw [allocated_pollIncoming] at hid
        exact hold id (Nat.le_of_succ_le hid)
      have honly : OnlyOldGames old { t with quic } := h
      by_cases hbad : (firstRead env quic ssl).1 = false ∧
          (firstRead env quic ssl).2.1.prefacePos = 8
      · -- the stream is rejected
        have hrest := ih hinv₁ hold₁ (honly.rejected env hinvq hbad) hloop
        obtain ⟨hpending, _, hquic, _⟩ := pollIncoming_rejected env { t with quic } ssl hbad
        rw [hquic, hpending] at hrest
        exact hrest.trans (not_congr (offersGame_rejected_iff env hroom hoffer hbad)).symm
      · -- the stream is pending now, whatever has come of its preface
        by_cases hkind : (firstRead env quic ssl).2.1.kind = .game
        · have hread : (firstRead env quic ssl).1 = true := firstRead_complete env hkind
          refine iff_of_false ?_ (not_not_intro (.game hroom hoffer ⟨hread, hkind⟩))
          have hnew : old ({ t with quic } : Table Ssl σ).allocated = none :=
            hold t.allocated (Nat.le_refl _)
          exact not_onlyOldGames env fuel hnew hinv₁ hbad hkind hloop
        · have hrest := ih hinv₁ hold₁ (honly.kept env hinvq hbad hkind) hloop
          obtain ⟨hpending, _, hquic, _⟩ := pollIncoming_kept env { t with quic } ssl hbad
          rw [hquic, hpending] at hrest
          exact hrest.trans (not_congr (offersGame_kept_iff env hroom hoffer hbad hkind)).symm

/-- A poll on a connection that has its game stream leaves no further game stream pending whose
preface it has completed, exactly if no stream is offered whose first reads deliver the whole
preface of a game stream. -/
theorem second_game_rejected_iff (h : Run env st handed) (hgame : st.sc.gameStream ≠ none)
    (fuel : ℕ) (hpoll : socketStreamPollIncoming env fuel st = .ok st') :
    (∀ pending, Listed st' pending → ∀ id ∈ pending, ∀ stream, st'.streams id = some stream →
        (∀ before, st.streams id = some before → before.prefacePos ≠ 8) → stream.kind ≠ .game) ↔
      ¬PollOffersGame env st := by
  obtain ⟨t, hrep, hinv⟩ := h.represents
  obtain ⟨t', htable, hrep'⟩ : ∃ t', t.poll env fuel = some t' ∧ Represents st' t' := by
    have hagrees := poll_agrees env fuel hrep
    rw [hpoll] at hagrees
    cases htable : t.poll env fuel with
    | none =>
      rw [htable] at hagrees
      exact hagrees.elim
    | some t' =>
      rw [htable] at hagrees
      exact ⟨t', rfl, hagrees⟩
  obtain ⟨hinv₁, honly, hallocated⟩ := retry_onlyOldGames env hinv (hrep.gameStream ▸ hgame)
  have hold : ∀ id, (t.retry env).allocated ≤ id → t.streams id = none := by
    intro id hid
    cases hstream : t.streams id with
    | none => rfl
    | some stream =>
      have hlt := hinv.below id stream hstream
      omega
  have hiff := pollAccept_onlyOldGames_iff env fuel t.streams hinv₁ hold honly htable
  -- what the table says is what the memory says
  have hleft : OnlyOldGames t.streams t' ↔
      ∀ pending, Listed st' pending → ∀ id ∈ pending, ∀ stream, st'.streams id = some stream →
        (∀ before, st.streams id = some before → before.prefacePos ≠ 8) → stream.kind ≠ .game := by
    constructor
    · intro honly pending hlisted id hid stream hstream hnew hkind
      have hsame := IntrusiveList.Seg.unique (fun _ _ => Option.some.inj)
        (fun _ _ _ => Option.some_ne_none _) hrep'.listed hlisted
      have hunlinked : t'.streams id = some stream.unlinked := by
        rw [hrep'.streams, hstream]
        rfl
      obtain ⟨before, hbefore, hfull⟩ := honly id (hsame ▸ hid) _ hunlinked hkind
      obtain ⟨linked, hlinked, hback⟩ := hrep.live hbefore
      rw [← hback] at hfull
      exact hnew linked hlinked hfull
    · intro hmem id hid stream hstream hkind
      obtain ⟨linked, hlinked, hback⟩ := hrep'.live hstream
      by_contra hno
      apply hmem t'.pending hrep'.listed id hid linked hlinked
      · intro before hbefore hfull
        refine hno ⟨before.unlinked, ?_, hfull⟩
        rw [hrep.streams, hbefore]
        rfl
      · rw [← hback] at hkind
        exact hkind
  have hright : PollOffersGame env st ↔
      OffersGame env (t.retry env).quic (t.retry env).pending.length := by
    have hhead : st.sc.pendingStreams = t.pending.head? := head_of_seg hrep.listed
    obtain ⟨st₁, hloop, hrep₁⟩ := pollPending_spec env (env.now t.quic).1 t.pending st.allocated
      (hrep.withQuic (env.now t.quic).2) (List.suffix_refl _) hrep.length_le
    have hquic : st₁.quic = (t.retry env).quic := hrep₁.quic
    have hcount : st₁.sc.pendingStreamCount = (t.retry env).pending.length := hrep₁.count
    unfold PollOffersGame
    rw [hrep.quic, hhead, hloop, ← hquic, ← hcount]
    constructor
    · intro hoffers
      obtain ⟨st₂, hsame, hoffers⟩ := hoffers
      rwa [Except.ok.inj hsame]
    · intro hoffers
      exact ⟨st₁, rfl, hoffers⟩
  rw [← hleft, hright]
  exact hiff

/-- A network on which a game stream arrives, and then a second one. -/
def Net.twoGames (schedule : List (Option ℕ)) : Net :=
  { schedule, arrived := [0, 1], up := fun _ => [0x41, 0x54, 0x52, 0x4e, 1, 0, 0, 1] }

/-- The state in which the connection over this network starts. -/
def started (schedule : List (Option ℕ)) : State ℕ Net :=
  State.start .quicConnection .server true (Net.twoGames schedule)

/-- The state after the connection has been prepared. -/
def prepared (schedule : List (Option ℕ)) : State ℕ Net :=
  (after Net.acceptor 4 (started schedule) .prepare).2

/-- The state after a poll that returns. -/
def polled (st : State ℕ Net) : State ℕ Net := (after Net.acceptor 4 st .poll).2

theorem run_prepared (schedule : List (Option ℕ))
    (hok : (perform Net.acceptor 4 (started schedule) .prepare).isOk = true)
    (hanswer : (after Net.acceptor 4 (started schedule) .prepare).1 = { stream := some 0 }) :
    Run Net.acceptor (prepared schedule) [0] := by
  have hstart : Run Net.acceptor (started schedule) [] :=
    .start .quicConnection .server true (Net.twoGames schedule)
  have hallowed : Allowed (started schedule) [] .prepare := trivial
  have hcall := perform_after Net.acceptor 4 (started schedule) .prepare hok
  rw [hanswer] at hcall
  exact hstart.call hallowed hcall

theorem poll_polled (st : State ℕ Net) (hok : (perform Net.acceptor 4 st .poll).isOk = true) :
    socketStreamPollIncoming Net.acceptor 4 st = .ok (polled st) := by
  have hcall := perform_after Net.acceptor 4 st .poll hok
  change (socketStreamPollIncoming Net.acceptor 4 st >>= fun st => .ok (({} : Answer), st)) =
    .ok (_, polled st) at hcall
  cases hpoll : socketStreamPollIncoming Net.acceptor 4 st with
  | ok st' =>
    rw [hpoll] at hcall
    have hpair := Except.ok.inj hcall
    exact congrArg Except.ok (Prod.mk.inj hpair).2
  | error fault =>
    rw [hpoll] at hcall
    cases hcall

/-- A second game stream whose preface arrives in two pieces, the second one in a later poll. -/
theorem second_game_rejected_iff_split :
    ∃ st st' : State ℕ Net, Run Net.acceptor st [0] ∧ st.sc.gameStream = some 0 ∧
      socketStreamPollIncoming Net.acceptor 4 st = .ok st' ∧ ¬PollOffersGame Net.acceptor st := by
  let schedule := [some 0, some 8, some 0, some 3, none, none, some 5, none]
  have hrun : Run Net.acceptor (prepared schedule) [0] :=
    run_prepared schedule (by decide +kernel) (by decide +kernel)
  have hgame : (prepared schedule).sc.gameStream = some 0 := by decide +kernel
  have hsome : (prepared schedule).sc.gameStream ≠ none := hgame ▸ Option.some_ne_none 0
  have hpoll := poll_polled (prepared schedule) (by decide +kernel)
  have hlisted : Listed (polled (prepared schedule)) [] := by
    have hhead : (polled (prepared schedule)).sc.pendingStreams = none := by decide +kernel
    exact hhead
  have hiff := second_game_rejected_iff Net.acceptor hrun hsome 4 hpoll
  refine ⟨prepared schedule, _, hrun, hgame, hpoll, hiff.mp ?_⟩
  intro pending hpending id hid
  have hnone := IntrusiveList.Seg.unique (fun _ _ => Option.some.inj)
    (fun _ _ _ => Option.some_ne_none _) hlisted hpending
  rw [← hnone] at hid
  exact absurd hid List.not_mem_nil

/-- A second game stream whose preface arrives in one piece is kept. -/
theorem second_game_kept :
    ¬∀ (st st' : State ℕ Net) (handed : List ℕ) (fuel : ℕ), Run Net.acceptor st handed →
      st.sc.role = .server → st.sc.gameStream ≠ none →
      socketStreamPollIncoming Net.acceptor fuel st = .ok st' →
      ∀ pending, Listed st' pending → ∀ id ∈ pending, ∀ stream, st'.streams id = some stream →
        (∀ before, st.streams id = some before → before.prefacePos ≠ 8) → stream.kind ≠ .game := by
  intro h
  let schedule := [some 0, some 8, none, some 0, some 8, none]
  have hrun : Run Net.acceptor (prepared schedule) [0] :=
    run_prepared schedule (by decide +kernel) (by decide +kernel)
  have hrole : (prepared schedule).sc.role = .server := by decide +kernel
  have hgame : (prepared schedule).sc.gameStream = some 0 := by decide +kernel
  have hsome : (prepared schedule).sc.gameStream ≠ none := hgame ▸ Option.some_ne_none 0
  have hnew : ((prepared schedule).streams 1).isNone = true := by decide +kernel
  have hpoll := poll_polled (prepared schedule) (by decide +kernel)
  have hhead : (polled (prepared schedule)).sc.pendingStreams = some 1 := by decide +kernel
  have hlink : (polled (prepared schedule)).links 1 = some none := by decide +kernel
  have hlisted : Listed (polled (prepared schedule)) [1] := ⟨hhead, none, hlink, rfl⟩
  have hkind : ((polled (prepared schedule)).streams 1).map SocketStream.kind = some .game := by
    decide +kernel
  obtain ⟨stream, hstream, hkind⟩ := Option.map_eq_some_iff.mp hkind
  refine h _ _ _ 4 hrun hrole hsome hpoll [1] hlisted 1 List.mem_cons_self stream hstream ?_ hkind
  intro before hbefore
  rw [hbefore] at hnew
  cases hnew

end LibAtrinik.Stream

import LibAtrinik.StreamPreface
import Mathlib.Data.List.Perm.Subperm

namespace LibAtrinik.Stream

open IntrusiveList

variable {Ssl σ : Type}

/-- The stream without its link. -/
def SocketStream.unlinked (stream : SocketStream Ssl) : SocketStream Ssl :=
  { stream with next := none }

/-- A connection with its streams, the pending ones in a list. -/
structure Table (Ssl σ : Type) where
  transport : SocketTransport
  role : SocketRole
  connectionIdFinal : Bool
  gameStream : Option ℕ
  pending : List ℕ
  streams : ℕ → Option (SocketStream Ssl)
  allocated : ℕ
  quic : σ

def Table.setStream (t : Table Ssl σ) (id : ℕ) (stream : SocketStream Ssl) : Table Ssl σ :=
  { t with streams := Function.update t.streams id (some stream) }

/-- A stream is taken out of the table and freed. -/
def Table.remove (t : Table Ssl σ) (id : ℕ) : Table Ssl σ :=
  { t with
    gameStream := if t.gameStream = some id then none else t.gameStream
    pending := t.pending.erase id
    streams := Function.update t.streams id none }

def State.links (st : State Ssl σ) : ℕ → Option (Option ℕ) :=
  Option.map SocketStream.next ∘ st.streams

/-- What there is in memory but for the list of pending streams. -/
def State.table (st : State Ssl σ) (pending : List ℕ) : Table Ssl σ where
  transport := st.sc.transport
  role := st.sc.role
  connectionIdFinal := st.sc.connectionIdFinal
  gameStream := st.sc.gameStream
  pending := pending
  streams := Option.map SocketStream.unlinked ∘ st.streams
  allocated := st.allocated
  quic := st.quic

/-- The pending streams in memory. -/
def Listed (st : State Ssl σ) (pending : List ℕ) : Prop :=
  Seg some st.links st.sc.pendingStreams pending none

/-- The state represents the table. -/
structure Represents (st : State Ssl σ) (t : Table Ssl σ) : Prop where
  listed : Listed st t.pending
  count : st.sc.pendingStreamCount = t.pending.length
  table : st.table t.pending = t
  below : ∀ id stream, t.streams id = some stream → id < t.allocated
  connected : ∀ id stream, t.streams id = some stream → stream.connection = true

theorem load_eq {st : State Ssl σ} {id : ℕ} {stream : SocketStream Ssl}
    (h : st.streams id = some stream) : st.load id = .ok stream := by
  rw [State.load, h]

theorem links_eq {st : State Ssl σ} {id : ℕ} {stream : SocketStream Ssl}
    (h : st.streams id = some stream) : st.links id = some stream.next := by
  rw [State.links, Function.comp_apply, h]
  rfl

theorem streams_of_links {st : State Ssl σ} {id : ℕ} {next : Option ℕ}
    (h : st.links id = some next) : ∃ stream, st.streams id = some stream ∧ stream.next = next := by
  rw [State.links, Function.comp_apply, Option.map_eq_some_iff] at h
  exact h

theorem Listed.nodup {st : State Ssl σ} {pending : List ℕ} (h : Listed st pending) :
    pending.Nodup :=
  Seg.nodup (fun _ _ => Option.some.inj) (fun _ _ _ => Option.some_ne_none _) h

theorem Listed.stream {st : State Ssl σ} {pending : List ℕ} (h : Listed st pending) (id : ℕ)
    (hid : id ∈ pending) : ∃ stream, st.streams id = some stream := by
  obtain ⟨next, hnext⟩ := Seg.link h id hid
  obtain ⟨stream, hstream, _⟩ := streams_of_links hnext
  exact ⟨stream, hstream⟩

section Represents

variable {st : State Ssl σ} {t : Table Ssl σ}

theorem Represents.streams (h : Represents st t) (id : ℕ) :
    t.streams id = (st.streams id).map SocketStream.unlinked := by
  rw [← h.table]
  rfl

theorem Represents.live (h : Represents st t) {id : ℕ} {stream : SocketStream Ssl}
    (hid : t.streams id = some stream) :
    ∃ linked, st.streams id = some linked ∧ linked.unlinked = stream := by
  rw [h.streams, Option.map_eq_some_iff] at hid
  exact hid

theorem Represents.gameStream (h : Represents st t) : st.sc.gameStream = t.gameStream := by
  rw [← h.table]
  rfl

theorem Represents.allocated (h : Represents st t) : st.allocated = t.allocated := by
  rw [← h.table]
  rfl

theorem Represents.quic (h : Represents st t) : st.quic = t.quic := by
  rw [← h.table]
  rfl

theorem Represents.pending_live (h : Represents st t) (id : ℕ) (hid : id ∈ t.pending) :
    ∃ stream, t.streams id = some stream := by
  obtain ⟨stream, hstream⟩ := h.listed.stream id hid
  exact ⟨stream.unlinked, by rw [h.streams, hstream]; rfl⟩

/-- There are no more pending streams than streams. -/
theorem Represents.length_le (h : Represents st t) : t.pending.length ≤ st.allocated := by
  have hsub : t.pending ⊆ List.range st.allocated := by
    intro id hid
    obtain ⟨stream, hstream⟩ := h.pending_live id hid
    rw [List.mem_range, h.allocated]
    exact h.below id stream hstream
  have hle := (h.listed.nodup.subperm hsub).length_le
  rwa [List.length_range] at hle

theorem Represents.withQuic (h : Represents st t) (quic : σ) :
    Represents { st with quic } { t with quic } := by
  have htable : ({ st with quic } : State Ssl σ).table t.pending =
      { st.table t.pending with quic } := rfl
  exact ⟨h.listed, h.count, by rw [htable, h.table], h.below, h.connected⟩

/-- A stream is changed, but for its link. -/
theorem Represents.setStream (h : Represents st t) {id : ℕ} {stream stream' : SocketStream Ssl}
    (hid : st.streams id = some stream) (hnext : stream'.next = stream.next)
    (hconnection : stream'.connection = true) :
    Represents (st.setStream id stream') (t.setStream id stream'.unlinked) := by
  have hlinks : (st.setStream id stream').links = st.links := by
    change Option.map SocketStream.next ∘ Function.update st.streams id (some stream') = _
    rw [Function.comp_update]
    apply Function.update_eq_self_iff.mpr
    rw [Function.comp_apply, hid, Option.map_some, Option.map_some, hnext]
  constructor
  · change Seg some (st.setStream id stream').links _ _ _
    rw [hlinks]
    exact h.listed
  · exact h.count
  · have htable : (st.setStream id stream').table t.pending =
        (st.table t.pending).setStream id stream'.unlinked := by
      have hstreams := Function.comp_update (Option.map SocketStream.unlinked) st.streams id
        (some stream')
      simp only [State.table, State.setStream, Table.setStream, hstreams]
      rfl
    exact htable.trans (by rw [h.table])
  · intro other otherStream hother
    change Function.update t.streams id _ other = some otherStream at hother
    by_cases hsame : other = id
    · have hold : t.streams id = some stream.unlinked := by
        rw [h.streams, hid]
        rfl
      rw [hsame]
      exact h.below id _ hold
    · rw [Function.update_of_ne hsame] at hother
      exact h.below other _ hother
  · intro other otherStream hother
    change Function.update t.streams id _ other = some otherStream at hother
    by_cases hsame : other = id
    · rw [hsame, Function.update_self] at hother
      rw [← Option.some.inj hother]
      exact hconnection
    · rw [Function.update_of_ne hsame] at hother
      exact h.connected other _ hother

end Represents

section Links

/-- The link to the stream after `before`. -/
def lastLink : Link → List ℕ → Link
  | link, [] => link
  | _, id :: before => lastLink (.next id) before

theorem lastLink_append (link : Link) (before : List ℕ) (id : ℕ) :
    lastLink link (before ++ [id]) = .next id := by
  induction before generalizing link with
  | nil => rfl
  | cons other before ih => exact ih (.next other)

variable {st : State Ssl σ}

theorem findLink_end (test : ℕ → SocketStream Ssl → Bool) (fuel : ℕ) (link : Link)
    (hload : st.loadLink link = .ok none) : findLink test st fuel link = .ok none := by
  rw [findLink, hload]
  rfl

theorem findLink_pass (test : ℕ → SocketStream Ssl → Bool) (fuel : ℕ) (link : Link) (id : ℕ)
    (stream : SocketStream Ssl) (hload : st.loadLink link = .ok (some id))
    (hid : st.streams id = some stream) (htest : test id stream = true) :
    findLink test st fuel link = .ok (some (link, id)) := by
  rw [findLink, hload]
  change (st.load id >>= fun stream => _) = _
  rw [load_eq hid]
  change (if test id stream = true then _ else _) = _
  rw [if_pos htest]
  rfl

theorem findLink_skip (test : ℕ → SocketStream Ssl → Bool) (fuel : ℕ) (link : Link) (id : ℕ)
    (stream : SocketStream Ssl) (hload : st.loadLink link = .ok (some id))
    (hid : st.streams id = some stream) (htest : ¬test id stream = true) :
    findLink test st (fuel+1) link = findLink test st fuel (.next id) := by
  rw [findLink, hload]
  change (st.load id >>= fun stream => _) = _
  rw [load_eq hid]
  change (if test id stream = true then _ else _) = _
  rw [if_neg htest]

/-- The loop finds the first stream that passes the test. -/
theorem findLink_spec (test : ℕ → SocketStream Ssl → Bool) (link : Link) (p : Option ℕ)
    (pending : List ℕ) (fuel : ℕ) (hload : st.loadLink link = .ok p)
    (h : Seg some st.links p pending none) (hfuel : pending.length ≤ fuel) :
    (findLink test st fuel link = .ok none ∧
        ∀ id ∈ pending, ∀ stream, st.streams id = some stream → test id stream = false) ∨
      ∃ before id after stream, pending = before ++ id :: after ∧
        st.streams id = some stream ∧ test id stream = true ∧
        (∀ other ∈ before, ∀ stream, st.streams other = some stream →
          test other stream = false) ∧
        findLink test st fuel link = .ok (some (lastLink link before, id)) := by
  induction pending generalizing link p fuel with
  | nil =>
    have hp : p = none := h
    left
    constructor
    · exact findLink_end test fuel link (hp ▸ hload)
    · intro id hid
      exact absurd hid List.not_mem_nil
  | cons id pending ih =>
    obtain ⟨hp, next, hnext, hrest⟩ := h
    obtain ⟨stream, hstream, hstreamNext⟩ := streams_of_links hnext
    by_cases htest : test id stream = true
    · right
      refine ⟨[], id, pending, stream, rfl, hstream, htest, ?_, ?_⟩
      · intro other hother
        exact absurd hother List.not_mem_nil
      · exact findLink_pass test fuel link id stream (hp ▸ hload) hstream htest
    · have hother : test id stream = false := Bool.eq_false_iff.mpr htest
      obtain ⟨fuel, hsucc⟩ : ∃ n, fuel = n+1 := ⟨fuel-1, by rw [List.length_cons] at hfuel; omega⟩
      have hloop := findLink_skip test fuel link id stream (hp ▸ hload) hstream htest
      have hnextLoad : st.loadLink (.next id) = .ok next := by
        change (st.load id).map SocketStream.next = _
        rw [load_eq hstream, ← hstreamNext]
        rfl
      have hshort : pending.length ≤ fuel := by rw [List.length_cons] at hfuel; omega
      rw [hsucc, hloop]
      rcases ih (.next id) next fuel hnextLoad hrest hshort with hnone | hfound
      · left
        refine ⟨hnone.1, ?_⟩
        intro b hb s hs
        rcases List.mem_cons.mp hb with hb | hb
        · rw [hb, hstream] at hs
          rw [hb, ← Option.some.inj hs]
          exact hother
        · exact hnone.2 b hb s hs
      · right
        obtain ⟨before, found, after, s, hsplit, hs, hpass, hbefore, hresult⟩ := hfound
        refine ⟨id :: before, found, after, s, ?_, hs, hpass, ?_, hresult⟩
        · rw [hsplit]
          rfl
        · intro b hb s hs
          rcases List.mem_cons.mp hb with hb | hb
          · rw [hb, hstream] at hs
            rw [hb, ← Option.some.inj hs]
            exact hother
          · exact hbefore b hb s hs

/-- Storing the link of a listed stream in the link to it takes it out of the list. -/
theorem storeLink_spec (before after : List ℕ) (id : ℕ) (stream : SocketStream Ssl)
    (h : Listed st (before ++ id :: after)) (hid : st.streams id = some stream) :
    ∃ st', st.storeLink (lastLink .head before) stream.next = .ok st' ∧
      Listed st' (before ++ after) ∧ (∀ pending, st'.table pending = st.table pending) ∧
      st'.sc.pendingStreamCount = st.sc.pendingStreamCount ∧ st'.streams id = some stream := by
  rcases List.eq_nil_or_concat before with hnil | ⟨first, b, hconcat⟩
  · rw [hnil]
    rw [hnil, List.nil_append] at h
    have hrest := Seg.pop id stream.next h h.nodup (links_eq hid) fun _ _ => rfl
    exact ⟨_, rfl, hrest, fun _ => rfl, rfl, hid⟩
  · rw [List.concat_eq_append] at hconcat
    rw [hconcat, List.append_assoc, List.singleton_append] at h
    have hnodup := h.nodup
    obtain ⟨bStream, hb⟩ := h.stream b (List.mem_append_right _ List.mem_cons_self)
    have hne : id ≠ b := by
      intro hsame
      have hnot := (List.nodup_cons.mp (List.nodup_append.mp hnodup).2.1).1
      exact hnot (hsame ▸ List.mem_cons_self)
    let st' := st.setStream b { bStream with next := stream.next }
    have hlinks : st'.links = Function.update st.links b (some stream.next) := by
      change Option.map _ ∘ Function.update st.streams b _ = _
      rw [Function.comp_update]
      rfl
    refine ⟨st', ?_, ?_, ?_, rfl, ?_⟩
    · rw [hconcat, lastLink_append]
      change (st.load b).map _ = _
      rw [load_eq hb]
      rfl
    · rw [hconcat, List.append_assoc, List.singleton_append]
      apply Seg.unlink b id h hnodup
      · rw [hlinks, Function.update_self, links_eq hid]
      · intro c hcb _
        rw [hlinks, Function.update_of_ne hcb]
    · intro pending
      have hsame : Option.map SocketStream.unlinked ∘
          Function.update st.streams b (some { bStream with next := stream.next }) =
            Option.map SocketStream.unlinked ∘ st.streams := by
        rw [Function.comp_update]
        apply Function.update_eq_self_iff.mpr
        rw [Function.comp_apply, hb]
        rfl
      simp only [st', State.table, State.setStream, hsame]
    · change Function.update st.streams b _ id = _
      rw [Function.update_of_ne hne, hid]

theorem countDown_eq (h : st.sc.pendingStreamCount ≠ 0) :
    st.countDown =
      .ok { st with sc := { st.sc with pendingStreamCount := st.sc.pendingStreamCount-1 } } := by
  rw [State.countDown, if_neg h]

/-- The stream is taken out of the list if it is there. -/
theorem unlinkPending_spec (pending : List ℕ) (id : ℕ) (stream : SocketStream Ssl)
    (h : Listed st pending) (hcount : st.sc.pendingStreamCount = pending.length)
    (hfuel : pending.length ≤ st.allocated) (hid : st.streams id = some stream) :
    ∃ st', unlinkPending st id stream = .ok st' ∧ Listed st' (pending.erase id) ∧
      st'.sc.pendingStreamCount = (pending.erase id).length ∧
      (∀ pending, st'.table pending = st.table pending) ∧ st'.streams id = some stream := by
  unfold unlinkPending
  rcases findLink_spec (fun other _ => other = id) .head st.sc.pendingStreams pending st.allocated
    rfl h hfuel with hnone | hfound
  · have hnot : id ∉ pending := by
      intro hmem
      exact absurd (hnone.2 id hmem stream hid) (by simp)
    rw [hnone.1, List.erase_of_not_mem hnot]
    exact ⟨st, rfl, h, hcount, fun _ => rfl, hid⟩
  · obtain ⟨before, found, after, other, hsplit, _, htest, hbefore, hresult⟩ := hfound
    have hfoundId : found = id := of_decide_eq_true htest
    rw [hfoundId] at hsplit hresult
    have hnot : id ∉ before := by
      intro hmem
      exact absurd (hbefore id hmem stream hid) (by simp)
    have herase : pending.erase id = before ++ after := by
      rw [hsplit, List.erase_append_right _ hnot, List.erase_cons_head]
    rw [hsplit] at h
    obtain ⟨st', hstore, hlisted, htable, hcount', hid'⟩ := storeLink_spec before after id stream h hid
    have hlength : pending.length = (before ++ after).length+1 := by
      rw [hsplit]
      simp only [List.length_append, List.length_cons]
      omega
    have hpos : st'.sc.pendingStreamCount ≠ 0 := by omega
    rw [hresult, herase]
    refine ⟨{ st' with sc := { st'.sc with pendingStreamCount := st'.sc.pendingStreamCount-1 } },
      ?_, hlisted, ?_, htable, hid'⟩
    · change (st.storeLink (lastLink .head before) stream.next >>= fun st => st.countDown) = _
      rw [hstore]
      exact countDown_eq hpos
    · change st'.sc.pendingStreamCount-1 = _
      omega

end Links

section Operations

variable {st : State Ssl σ} {t : Table Ssl σ} {env : Quic Ssl σ}

/-- A stream that is unlinked and then freed is gone from the table. -/
theorem unlink_spec (h : Represents st t) (id : ℕ) (stream : SocketStream Ssl)
    (hid : t.streams id = some stream) :
    ∃ st', socketStreamUnlink st id = .ok st' ∧ Represents (st'.freeStream id) (t.remove id) := by
  obtain ⟨linked, hlinked, hunlinked⟩ := h.live hid
  have hconnection : linked.connection = true := by
    have hstream := h.connected id stream hid
    rwa [← hunlinked] at hstream
  have hforget : (st.forgetGame id).streams = st.streams ∧
      (st.forgetGame id).sc.pendingStreams = st.sc.pendingStreams ∧
      (st.forgetGame id).sc.pendingStreamCount = st.sc.pendingStreamCount ∧
      (st.forgetGame id).allocated = st.allocated := by
    unfold State.forgetGame
    split_ifs <;> exact ⟨rfl, rfl, rfl, rfl⟩
  have hlisted : Listed (st.forgetGame id) t.pending := by
    unfold Listed State.links
    rw [hforget.1, hforget.2.1]
    exact h.listed
  obtain ⟨st₁, hunlink, hlisted₁, hcount₁, htable₁, hid₁⟩ :=
    unlinkPending_spec t.pending id linked hlisted (hforget.2.2.1.trans h.count)
      (by rw [hforget.2.2.2]; exact h.length_le) (by rw [hforget.1]; exact hlinked)
  let st₂ := st₁.setStream id { linked with next := none, connection := false }
  have hnot : id ∉ t.pending.erase id := h.listed.nodup.not_mem_erase
  have hstreams : (st₂.freeStream id).streams = Function.update st₁.streams id none :=
    Function.update_idem _ _ _
  refine ⟨st₂, ?_, ?_, ?_, ?_, ?_, ?_⟩
  · unfold socketStreamUnlink
    rw [load_eq hlinked]
    change (if (!linked.connection) = true then _ else _) = _
    rw [hconnection, if_neg (by decide)]
    rw [hunlink]
    change (st₁.load id >>= fun stream => _) = _
    rw [load_eq hid₁]
    rfl
  · -- the other links are as they were
    change Seg some (st₂.freeStream id).links st₁.sc.pendingStreams (t.pending.erase id) none
    apply Seg.congr hlisted₁
    intro other hother
    have hne : other ≠ id := fun hsame => hnot (hsame ▸ hother)
    rw [State.links, hstreams, Function.comp_apply, Function.update_of_ne hne]
    rfl
  · exact hcount₁
  · have hgame : ∀ pending, ((st.forgetGame id).table pending) = { st.table pending with
        gameStream := if st.sc.gameStream = some id then none else st.sc.gameStream } := by
      intro pending
      unfold State.forgetGame
      split_ifs <;> rfl
    have hfree : (st₂.freeStream id).table (t.pending.erase id) =
        { st₁.table (t.pending.erase id) with
          streams := Function.update (st₁.table (t.pending.erase id)).streams id none } := by
      simp only [State.table, hstreams, Function.comp_update]
      rfl
    have hafter : (t.remove id).pending = t.pending.erase id := rfl
    rw [hafter, hfree, htable₁, hgame]
    have hold := h.table
    unfold Table.remove
    rw [← hold]
    rfl
  · intro other otherStream hother
    change Function.update t.streams id none other = some otherStream at hother
    by_cases hsame : other = id
    · rw [hsame, Function.update_self] at hother
      cases hother
    · rw [Function.update_of_ne hsame] at hother
      exact h.below other _ hother
  · intro other otherStream hother
    change Function.update t.streams id none other = some otherStream at hother
    by_cases hsame : other = id
    · rw [hsame, Function.update_self] at hother
      cases hother
    · rw [Function.update_of_ne hsame] at hother
      exact h.connected other _ hother

end Operations

end LibAtrinik.Stream

import LibAtrinik.StreamModel

namespace LibAtrinik.Stream

/-- What has been encoded is decoded again. -/
theorem decode_encode (kind : SocketStreamKind) (preface : Preface)
    (h : socketStreamPrefaceEncode kind = .ok preface) :
    socketStreamPrefaceDecode preface.val = some kind := by
  cases kind with
  | unknown => cases h
  | game =>
    have hpreface := Except.ok.inj h
    rw [← hpreface]
    rfl
  | asset =>
    have hpreface := Except.ok.inj h
    rw [← hpreface]
    rfl

/-- What has been received up to a position, together with what is stored there. -/
theorem take_store (preface : Preface) (pos : ℕ) (bytes : List UInt8)
    (h : pos+bytes.length ≤ 8) :
    (preface.store pos bytes h).val.take (pos+bytes.length) = preface.val.take pos ++ bytes := by
  have hlength := preface.property
  have hfirst : (preface.val.take pos ++ bytes).length = pos+bytes.length := by
    rw [List.length_append, List.length_take]
    omega
  change (preface.val.take pos ++ bytes ++ preface.val.drop (pos+bytes.length)).take _ = _
  rw [List.take_append_of_le_length (Nat.le_of_eq hfirst.symm), ← hfirst, List.take_length]

theorem store_nil (preface : Preface) (pos : ℕ) (bytes : List UInt8) (h : pos+bytes.length ≤ 8)
    (hbytes : bytes.length = 0) : preface.store pos bytes h = preface := by
  apply Subtype.ext
  change preface.val.take pos ++ bytes ++ preface.val.drop (pos+bytes.length) = preface.val
  rw [List.length_eq_zero_iff.mp hbytes, List.append_nil]
  exact List.take_append_drop pos preface.val

variable {Ssl σ : Type} {env : Quic Ssl σ}

/-- What `socket_stream_preface_read` can do. -/
inductive PrefaceRead (env : Quic Ssl σ) :
    SocketStream Ssl → σ → Bool → SocketStream Ssl → σ → Prop where
  | full {stream : SocketStream Ssl} {s : σ} (hpos : 8 ≤ stream.prefacePos) :
      PrefaceRead env stream s (socketStreamPrefaceValid stream).1
        (socketStreamPrefaceValid stream).2 s
  | more {stream stream' : SocketStream Ssl} {s s₁ s' : σ} {complete : Bool}
      {bytes : List UInt8} {hsize : bytes.length ≤ 8-stream.prefacePos}
      (hpos : stream.prefacePos+bytes.length ≤ 8)
      (hread : env.readEx s stream.ssl (8-stream.prefacePos) = (.ok ⟨bytes, hsize⟩, s₁))
      (hbytes : bytes.length ≠ 0)
      (hrest : PrefaceRead env
        { stream with
          preface := stream.preface.store stream.prefacePos bytes hpos
          prefacePos := stream.prefacePos+bytes.length } s₁ complete stream' s') :
      PrefaceRead env stream s complete stream' s'
  | wait {stream : SocketStream Ssl} {s s' : σ}
      {answer : SslAnswer { bytes : List UInt8 // bytes.length ≤ 8-stream.prefacePos }}
      (hpos : stream.prefacePos < 8)
      (hread : env.readEx s stream.ssl (8-stream.prefacePos) = (answer, s'))
      (hanswer : bytesRead answer = []) :
      PrefaceRead env stream s false stream s'
  | fatal {stream : SocketStream Ssl} {s s' : σ}
      {answer : SslAnswer { bytes : List UInt8 // bytes.length ≤ 8-stream.prefacePos }}
      (hpos : stream.prefacePos < 8)
      (hread : env.readEx s stream.ssl (8-stream.prefacePos) = (answer, s'))
      (hanswer : answer = .finished ∨ answer = .failed) :
      PrefaceRead env stream s false { stream with preface := Preface.zero, prefacePos := 8 } s'

section Loop

variable (env)

/-- The loop comes to its end: every round but the last one receives a byte. -/
theorem prefaceReadLoop_returns (fuel : ℕ) (stream : SocketStream Ssl) (s : σ)
    (hfuel : 8 ≤ stream.prefacePos+fuel) :
    ∃ complete stream' s', prefaceReadLoop env fuel stream s = .ok (complete, stream', s') ∧
      PrefaceRead env stream s complete stream' s' := by
  induction fuel generalizing stream s with
  | zero =>
    have hpos : ¬stream.prefacePos < 8 := by omega
    refine ⟨_, _, _, ?_, .full (Nat.le_of_not_lt hpos)⟩
    rw [prefaceReadLoop, dif_neg hpos]
  | succ fuel ih =>
    rw [prefaceReadLoop]
    by_cases hpos : stream.prefacePos < 8
    · rw [dif_pos hpos]
      rcases hread : env.readEx s stream.ssl (8-stream.prefacePos) with ⟨answer, s₁⟩
      cases answer with
      | ok bytes =>
        have hbytes := bytes.property
        dsimp only
        by_cases hempty : bytes.val.length = 0
        · rw [if_pos hempty]
          refine ⟨_, _, _, rfl, ?_⟩
          rw [store_nil _ _ _ _ hempty, hempty]
          exact .wait hpos hread (List.length_eq_zero_iff.mp hempty)
        · rw [if_neg hempty]
          have hmore : 8 ≤ stream.prefacePos+bytes.val.length+fuel := by omega
          obtain ⟨complete, stream', s', hloop, hrest⟩ := ih
            { stream with
              preface := stream.preface.store stream.prefacePos bytes.val (by omega)
              prefacePos := stream.prefacePos+bytes.val.length } s₁ hmore
          exact ⟨complete, stream', s', hloop, .more _ hread hempty hrest⟩
      | want => exact ⟨_, _, _, rfl, .wait hpos hread rfl⟩
      | finished => exact ⟨_, _, _, rfl, .fatal hpos hread (Or.inl rfl)⟩
      | failed => exact ⟨_, _, _, rfl, .fatal hpos hread (Or.inr rfl)⟩
    · rw [dif_neg hpos]
      exact ⟨_, _, _, rfl, .full (Nat.le_of_not_lt hpos)⟩

/-- `socket_stream_preface_read`, without a bound on its rounds. -/
def prefaceRead (stream : SocketStream Ssl) (s : σ) :
    Bool × SocketStream Ssl × σ :=
  match prefaceReadLoop env 8 stream s with
  | .ok result => result
  | .error _ => (false, stream, s)

theorem prefaceReadLoop_eq (stream : SocketStream Ssl) (s : σ) :
    prefaceReadLoop env 8 stream s = .ok (prefaceRead env stream s) := by
  obtain ⟨complete, stream', s', hloop, _⟩ :=
    prefaceReadLoop_returns env 8 stream s (Nat.le_add_left _ _)
  rw [prefaceRead, hloop]

theorem prefaceRead_spec (stream : SocketStream Ssl) (s : σ) :
    PrefaceRead env stream s (prefaceRead env stream s).1 (prefaceRead env stream s).2.1
      (prefaceRead env stream s).2.2 := by
  obtain ⟨complete, stream', s', hloop, hread⟩ :=
    prefaceReadLoop_returns env 8 stream s (Nat.le_add_left _ _)
  rw [prefaceReadLoop_eq] at hloop
  rwa [Except.ok.inj hloop]

/-- The link of the stream makes no difference. -/
theorem prefaceReadLoop_next (next : Option ℕ) (fuel : ℕ) (stream : SocketStream Ssl) (s : σ) :
    prefaceReadLoop env fuel { stream with next } s =
      (prefaceReadLoop env fuel stream s).map fun result =>
        (result.1, { result.2.1 with next }, result.2.2) := by
  induction fuel generalizing stream s with
  | zero =>
    rw [prefaceReadLoop, prefaceReadLoop]
    by_cases hpos : stream.prefacePos < 8
    · rw [dif_pos hpos, dif_pos hpos]
      rfl
    · rw [dif_neg hpos, dif_neg hpos]
      unfold socketStreamPrefaceValid
      dsimp only
      split <;> rfl
  | succ fuel ih =>
    rw [prefaceReadLoop, prefaceReadLoop]
    by_cases hpos : stream.prefacePos < 8
    · rw [dif_pos hpos, dif_pos hpos]
      dsimp only
      rcases env.readEx s stream.ssl (8-stream.prefacePos) with ⟨answer, s₁⟩
      cases answer with
      | ok bytes =>
        dsimp only
        by_cases hempty : bytes.val.length = 0
        · rw [if_pos hempty, if_pos hempty]
          rfl
        · rw [if_neg hempty, if_neg hempty]
          exact ih { stream with
            preface := stream.preface.store stream.prefacePos bytes.val _
            prefacePos := stream.prefacePos+bytes.val.length } s₁
      | want => rfl
      | finished => rfl
      | failed => rfl
    · rw [dif_neg hpos, dif_neg hpos]
      unfold socketStreamPrefaceValid
      dsimp only
      split <;> rfl

theorem prefaceRead_next (next : Option ℕ) (stream : SocketStream Ssl) (s : σ) :
    prefaceRead env { stream with next } s =
      ((prefaceRead env stream s).1, { (prefaceRead env stream s).2.1 with next },
        (prefaceRead env stream s).2.2) := by
  have hloop := prefaceReadLoop_next env next 8 stream s
  rw [prefaceReadLoop_eq, prefaceReadLoop_eq] at hloop
  exact Except.ok.inj hloop

end Loop

/-- What reading the preface leaves alone. -/
theorem PrefaceRead.frame {stream stream' : SocketStream Ssl} {s s' : σ} {complete : Bool}
    (h : PrefaceRead env stream s complete stream' s') :
    stream'.ssl = stream.ssl ∧ stream'.connection = stream.connection ∧
      stream'.next = stream.next ∧ stream'.createdMs = stream.createdMs ∧
      stream'.isLocal = stream.isLocal := by
  induction h with
  | full hpos =>
    unfold socketStreamPrefaceValid
    split <;> exact ⟨rfl, rfl, rfl, rfl, rfl⟩
  | more _ _ _ _ ih => exact ih
  | wait => exact ⟨rfl, rfl, rfl, rfl, rfl⟩
  | fatal => exact ⟨rfl, rfl, rfl, rfl, rfl⟩

/-- The preface has arrived with its kind, or it has not been recognised. -/
theorem PrefaceRead.outcome {stream stream' : SocketStream Ssl} {s s' : σ} {complete : Bool}
    (h : PrefaceRead env stream s complete stream' s') (hpos : stream.prefacePos ≤ 8) :
    (complete = true ∧ stream'.prefacePos = 8 ∧
        socketStreamPrefaceDecode stream'.preface.val = some stream'.kind) ∨
      (complete = false ∧ stream'.prefacePos ≤ 8 ∧ stream'.kind = stream.kind) := by
  induction h with
  | @full stream s hfull =>
    have height : stream.prefacePos = 8 := by omega
    unfold socketStreamPrefaceValid
    cases hdecode : socketStreamPrefaceDecode stream.preface.val with
    | some kind => exact Or.inl ⟨rfl, height, hdecode⟩
    | none => exact Or.inr ⟨rfl, hpos, rfl⟩
  | more hfits _ _ _ ih => exact ih hfits
  | wait => exact Or.inr ⟨rfl, hpos, rfl⟩
  | fatal => exact Or.inr ⟨rfl, Nat.le_refl 8, rfl⟩

/-- What `socket_stream_preface_write` can do. -/
inductive PrefaceWrite (env : Quic Ssl σ) :
    SocketStream Ssl → σ → SocketStreamResult → SocketStream Ssl → σ → Prop where
  | written {stream : SocketStream Ssl} {s : σ}
      (hdone : stream.isLocal = true → 8 ≤ stream.prefacePos) :
      PrefaceWrite env stream s .ok stream s
  | more {stream stream' : SocketStream Ssl} {s s₁ s' : σ} {status : SocketStreamResult}
      {answer : SslAnswer
        { amount : ℕ // amount ≤ (stream.preface.val.drop stream.prefacePos).length }}
      (hlocal : stream.isLocal = true) (hpos : stream.prefacePos < 8)
      (hwrite : env.writeEx s stream.ssl (stream.preface.val.drop stream.prefacePos) =
        (answer, s₁))
      (hamount : amountWritten answer ≠ 0)
      (hrest : PrefaceWrite env
        { stream with prefacePos := stream.prefacePos+amountWritten answer } s₁ status stream' s') :
      PrefaceWrite env stream s status stream' s'
  | wait {stream : SocketStream Ssl} {s s' : σ} {status : SocketStreamResult}
      {answer : SslAnswer
        { amount : ℕ // amount ≤ (stream.preface.val.drop stream.prefacePos).length }}
      (hlocal : stream.isLocal = true) (hpos : stream.prefacePos < 8)
      (hwrite : env.writeEx s stream.ssl (stream.preface.val.drop stream.prefacePos) =
        (answer, s'))
      (hamount : amountWritten answer = 0) (hstatus : status ≠ .ok) :
      PrefaceWrite env stream s status stream s'

/-- The result is positive only if something has been moved. -/
theorem sslResult_eq_ok_iff {size : ℕ} (answer : SslAnswer { amount : ℕ // amount ≤ size }) :
    socketStreamSslResult answer (amountWritten answer) = .ok ↔ amountWritten answer ≠ 0 := by
  cases answer with
  | ok amount =>
    unfold socketStreamSslResult
    dsimp only
    split_ifs with hzero
    · exact iff_of_true rfl hzero
    · exact iff_of_false (by decide) hzero
  | want => exact iff_of_false (fun h => nomatch h) (fun h => h rfl)
  | finished => exact iff_of_false (fun h => nomatch h) (fun h => h rfl)
  | failed => exact iff_of_false (fun h => nomatch h) (fun h => h rfl)

section WriteLoop

variable (env)

theorem prefaceWriteLoop_returns (fuel : ℕ) (stream : SocketStream Ssl) (s : σ)
    (hfuel : 8 ≤ stream.prefacePos+fuel) :
    ∃ status stream' s', prefaceWriteLoop env fuel stream s = .ok (status, stream', s') ∧
      PrefaceWrite env stream s status stream' s' := by
  induction fuel generalizing stream s with
  | zero =>
    have hdone : ¬(stream.isLocal = true ∧ stream.prefacePos < 8) := by
      intro h
      omega
    rw [prefaceWriteLoop, if_neg hdone]
    exact ⟨_, _, _, rfl, .written fun _ => hfuel⟩
  | succ fuel ih =>
    rw [prefaceWriteLoop]
    by_cases hdue : stream.isLocal = true ∧ stream.prefacePos < 8
    · rw [if_pos hdue]
      rcases hwrite : env.writeEx s stream.ssl (stream.preface.val.drop stream.prefacePos) with
        ⟨answer, s₁⟩
      dsimp only
      by_cases hstatus : socketStreamSslResult answer (amountWritten answer) = .ok
      · rw [if_neg (not_not_intro hstatus)]
        have hamount := (sslResult_eq_ok_iff answer).mp hstatus
        have hmore : 8 ≤ stream.prefacePos+amountWritten answer+fuel := by omega
        obtain ⟨status, stream', s', hloop, hrest⟩ := ih
          { stream with prefacePos := stream.prefacePos+amountWritten answer } s₁ hmore
        exact ⟨status, stream', s', hloop, .more hdue.1 hdue.2 hwrite hamount hrest⟩
      · rw [if_pos hstatus]
        have hamount := not_not.mp fun h => hstatus ((sslResult_eq_ok_iff answer).mpr h)
        exact ⟨_, _, _, rfl, .wait hdue.1 hdue.2 hwrite hamount hstatus⟩
    · rw [if_neg hdue]
      exact ⟨_, _, _, rfl, .written fun hlocal => Nat.le_of_not_lt fun hpos => hdue ⟨hlocal, hpos⟩⟩

/-- `socket_stream_preface_write`, without a bound on its rounds. -/
def prefaceWrite (stream : SocketStream Ssl) (s : σ) :
    SocketStreamResult × SocketStream Ssl × σ :=
  match prefaceWriteLoop env 8 stream s with
  | .ok result => result
  | .error _ => (.error, stream, s)

theorem prefaceWriteLoop_eq (stream : SocketStream Ssl) (s : σ) :
    prefaceWriteLoop env 8 stream s = .ok (prefaceWrite env stream s) := by
  obtain ⟨status, stream', s', hloop, _⟩ :=
    prefaceWriteLoop_returns env 8 stream s (Nat.le_add_left _ _)
  rw [prefaceWrite, hloop]

theorem prefaceWrite_spec (stream : SocketStream Ssl) (s : σ) :
    PrefaceWrite env stream s (prefaceWrite env stream s).1 (prefaceWrite env stream s).2.1
      (prefaceWrite env stream s).2.2 := by
  obtain ⟨status, stream', s', hloop, hwrite⟩ :=
    prefaceWriteLoop_returns env 8 stream s (Nat.le_add_left _ _)
  rw [prefaceWriteLoop_eq] at hloop
  rwa [Except.ok.inj hloop]

theorem prefaceWriteLoop_next (next : Option ℕ) (fuel : ℕ) (stream : SocketStream Ssl) (s : σ) :
    prefaceWriteLoop env fuel { stream with next } s =
      (prefaceWriteLoop env fuel stream s).map fun result =>
        (result.1, { result.2.1 with next }, result.2.2) := by
  induction fuel generalizing stream s with
  | zero =>
    rw [prefaceWriteLoop, prefaceWriteLoop]
    dsimp only
    split_ifs <;> rfl
  | succ fuel ih =>
    rw [prefaceWriteLoop, prefaceWriteLoop]
    dsimp only
    by_cases hdue : stream.isLocal = true ∧ stream.prefacePos < 8
    · rw [if_pos hdue, if_pos hdue]
      let written := env.writeEx s stream.ssl (stream.preface.val.drop stream.prefacePos)
      split_ifs
      · rfl
      · exact ih { stream with prefacePos := stream.prefacePos+amountWritten written.1 } written.2
    · rw [if_neg hdue, if_neg hdue]
      rfl

theorem prefaceWrite_next (next : Option ℕ) (stream : SocketStream Ssl) (s : σ) :
    prefaceWrite env { stream with next } s =
      ((prefaceWrite env stream s).1, { (prefaceWrite env stream s).2.1 with next },
        (prefaceWrite env stream s).2.2) := by
  have hloop := prefaceWriteLoop_next env next 8 stream s
  rw [prefaceWriteLoop_eq, prefaceWriteLoop_eq] at hloop
  exact Except.ok.inj hloop

end WriteLoop

/-- Writing the preface changes nothing in the stream but its position. -/
theorem PrefaceWrite.frame {stream stream' : SocketStream Ssl} {s s' : σ}
    {status : SocketStreamResult} (h : PrefaceWrite env stream s status stream' s') :
    stream' = { stream with prefacePos := stream'.prefacePos } := by
  induction h with
  | written => rfl
  | more _ _ _ _ _ ih => exact ih
  | wait => rfl

/-- The preface of a stream from the other side has nothing left to write. -/
theorem PrefaceWrite.remote {stream stream' : SocketStream Ssl} {s s' : σ}
    {status : SocketStreamResult} (h : PrefaceWrite env stream s status stream' s')
    (hremote : stream.isLocal = false) : status = .ok ∧ stream' = stream ∧ s' = s := by
  cases h with
  | written => exact ⟨rfl, rfl, rfl⟩
  | more hlocal => exact absurd (hremote.symm.trans hlocal) (by decide)
  | wait hlocal => exact absurd (hremote.symm.trans hlocal) (by decide)

end LibAtrinik.Stream

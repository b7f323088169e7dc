import LibAtrinik.CurlPins

namespace LibAtrinik.CurlTransfer

section Mutex

variable {Key : Type} {cfg : Setting Key} {s s' : State} {n : ℕ}

/-- The call takes the mutex. A certificate that OpenSSL has rejected already needs no check. -/
def Event.locks : Event Key → Bool
  | .sslVerify preverifyOk hasRequest _ => preverifyOk && hasRequest
  | _ => true

/-- The call checks a certificate. -/
def Event.checks : Event Key → Bool
  | .sslVerify preverifyOk hasRequest _ => preverifyOk && hasRequest
  | _ => false

theorem withMutex_eq_none {inside : State → State × ℕ} :
    withMutex s inside = none ↔ s.request.locked = true := by
  unfold withMutex
  cases s.request.locked <;> simp

theorem mutex_locked {io : Io} {refused : ℕ} {inside : State → State × ℕ}
    (hinside : ∀ s, (inside s).1.request.locked = s.request.locked)
    (h : withMutex s (fun s => verified cfg io s refused inside) = some (s', n)) :
    s'.request.locked = false := by
  obtain ⟨hfree, hv⟩ := withMutex_eq_some.mp h
  rcases verified_cases (s := s) io refused inside with ⟨_, heq⟩ | ⟨_, heq⟩
  · have hsame := hinside ⟨s.request, (curlVerifyCertChain cfg io s.request s.files).2⟩
    rw [← heq, hv] at hsame
    exact hsame.trans hfree
  · rw [heq] at hv
    rw [← (Prod.mk.inj hv).1]
    exact hfree

variable [DecidableEq Key]

theorem step_eq_none_iff (event : Event Key) :
    step cfg s event = none ↔ s.request.locked = true ∧ event.locks = true := by
  cases event with
  | sslVerify preverifyOk hasRequest cert =>
    change curlSslVerify cfg preverifyOk hasRequest cert s = none ↔
      s.request.locked = true ∧ (preverifyOk && hasRequest) = true
    unfold curlSslVerify
    cases preverifyOk with
    | false => simp
    | true =>
      cases hasRequest with
      | false => simp
      | true =>
        cases hlock : s.request.locked with
        | true => simp
        | false =>
          refine ⟨fun hnone => ?_, fun h => absurd h.1 Bool.false_ne_true⟩
          simp only [Bool.not_true, Bool.false_eq_true, if_false] at hnone
          split_ifs at hnone
          cases cert with
          | none => cases hnone
          | some cert =>
            obtain ⟨cn, key⟩ := cert
            cases cn with
            | none => cases hnone
            | some cn =>
              cases key with
              | none => cases hnone
              | some key =>
                exact absurd (hlock.symm.trans (withMutex_eq_none.mp hnone)) Bool.false_ne_true
  | body io buffer size nitems =>
    change curlCallback cfg io buffer size nitems s = none ↔ _
    rw [curlCallback, withMutex_eq_none]
    exact (and_iff_left rfl).symm
  | header io buffer size nitems =>
    change curlHeaderCallback cfg io buffer size nitems s = none ↔ _
    rw [curlHeaderCallback, withMutex_eq_none]
    exact (and_iff_left rfl).symm
  | sslCtx io =>
    change curlSslCtx cfg io s = none ↔ _
    rw [curlSslCtx, withMutex_eq_none]
    exact (and_iff_left rfl).symm
  | progress io =>
    change curlProgress cfg io s = none ↔ _
    rw [curlProgress, withMutex_eq_none]
    exact (and_iff_left rfl).symm
  | setMaxBody maximum =>
    change curlRequestSetMaxBody maximum s = none ↔ _
    rw [curlRequestSetMaxBody, withMutex_eq_none]
    exact (and_iff_left rfl).symm
  | free =>
    change curlRequestFree s = none ↔ _
    rw [curlRequestFree, withMutex_eq_none]
    exact (and_iff_left rfl).symm

/-- A check of a certificate leaves the mutex locked where ultimate trust has no keys. -/
theorem curlSslVerify_locked {preverifyOk hasRequest : Bool} {cert : Option (Cert Key)}
    (hfree : s.request.locked = false)
    (h : curlSslVerify cfg preverifyOk hasRequest cert s = some (s', n)) :
    s'.request.locked = (preverifyOk && hasRequest && decide (cfg.trusted = []) &&
      decide (s.request.trust = .ultimate)) := by
  unfold curlSslVerify at h
  cases preverifyOk with
  | false =>
    rw [← (Prod.mk.inj (Option.some.inj h)).1, hfree]
    rfl
  | true =>
    cases hasRequest with
    | false =>
      rw [← (Prod.mk.inj (Option.some.inj h)).1, hfree]
      rfl
    | true =>
      simp only [Bool.not_true, Bool.false_eq_true, if_false, hfree] at h
      simp only [Bool.true_and]
      split_ifs at h with hsys hnil hult
      · rw [← (Prod.mk.inj (Option.some.inj h)).1, hfree, hsys]
        simp
      · rw [← (Prod.mk.inj (Option.some.inj h)).1, hnil, hult]
        rfl
      · rw [← (Prod.mk.inj (Option.some.inj h)).1, decide_eq_false hult, Bool.and_false]
      · rw [decide_eq_false hnil, Bool.false_and]
        cases cert with
        | none => rw [← (Prod.mk.inj (Option.some.inj h)).1, hfree]
        | some cert =>
          obtain ⟨cn, key⟩ := cert
          cases cn with
          | none => rw [← (Prod.mk.inj (Option.some.inj h)).1, hfree]
          | some cn =>
            cases key with
            | none => rw [← (Prod.mk.inj (Option.some.inj h)).1, hfree]
            | some key =>
              have hc := (withMutex_eq_some.mp h).2
              unfold countCert at hc
              dsimp only at hc
              split_ifs at hc
              all_goals
                rw [← (Prod.mk.inj hc).1]
                exact hfree

/-- A call that found the mutex free leaves it free, but for the assertion about ultimate trust. -/
theorem step_locked (event : Event Key) (hfree : s.request.locked = false)
    (h : step cfg s event = some (s', n)) :
    s'.request.locked =
      (event.checks && decide (cfg.trusted = []) && decide (s.request.trust = .ultimate)) := by
  cases event with
  | sslVerify preverifyOk hasRequest cert => exact curlSslVerify_locked hfree h
  | body io buffer size nitems =>
    have hc : curlCallback cfg io buffer size nitems s = some (s', n) := h
    exact mutex_locked (fun s => by dsimp only; split_ifs <;> rfl) hc
  | header io buffer size nitems =>
    have hc : curlHeaderCallback cfg io buffer size nitems s = some (s', n) := h
    exact mutex_locked (fun s => by dsimp only; split_ifs <;> rfl) hc
  | sslCtx io =>
    have hc : curlSslCtx cfg io s = some (s', n) := h
    exact mutex_locked (fun s => rfl) hc
  | progress io =>
    have hc : curlProgress cfg io s = some (s', n) := h
    exact mutex_locked (fun s => rfl) hc
  | setMaxBody maximum =>
    have hset : curlRequestSetMaxBody maximum s = some (s', n) := h
    rw [← (Prod.mk.inj (withMutex_eq_some.mp hset).2).1]
    exact hfree
  | free =>
    have hset : curlRequestFree s = some (s', n) := h
    rw [← (Prod.mk.inj (withMutex_eq_some.mp hset).2).1]
    exact hfree

/-- A call that does not take the mutex does nothing. -/
theorem step_of_not_locks {event : Event Key} (hlocks : event.locks = false) :
    step cfg s event = some (s, 0) := by
  match event with
  | .sslVerify preverifyOk hasRequest cert =>
    have hlocks : (preverifyOk && hasRequest) = false := hlocks
    show curlSslVerify cfg preverifyOk hasRequest cert s = some (s, 0)
    unfold curlSslVerify
    cases preverifyOk with
    | false => rfl
    | true =>
      rw [Bool.true_and] at hlocks
      rw [hlocks]
      rfl

theorem run_eq_none_iff_cons {event : Event Key} {events : List (Event Key)}
    (h : step cfg s event = some (s', n)) :
    run cfg s (event :: events) = none ↔ run cfg s' events = none := by
  simp only [run, h, Option.bind_eq_bind, Option.bind_some]
  cases run cfg s' events <;> simp

theorem run_locked (events : List (Event Key)) (hlocked : s.request.locked = true) :
    run cfg s events = none ↔ ∃ e ∈ events, e.locks = true := by
  induction events with
  | nil => simp [run]
  | cons event events ih =>
    rw [List.exists_mem_cons_iff]
    cases hl : event.locks with
    | true =>
      have hnone := (@step_eq_none_iff Key cfg s _ event).mpr ⟨hlocked, hl⟩
      rw [run, hnone]
      exact ⟨fun _ => Or.inl rfl, fun _ => rfl⟩
    | false =>
      rw [run_eq_none_iff_cons (step_of_not_locks hl), ih]
      exact ⟨Or.inr, fun h => h.resolve_left Bool.false_ne_true⟩

theorem step_trust {event : Event Key} (h : step cfg s event = some (s', n)) :
    s'.request.trust = s.request.trust := by
  cases event with
  | sslVerify preverifyOk hasRequest cert => exact (curlSslVerify_sameData h).trust
  | sslCtx io => exact (curlSslCtx_sameData h).trust
  | body io buffer size nitems =>
    have hc : curlCallback cfg io buffer size nitems s = some (s', n) := h
    exact (mutex_sameCerts (fun s => by dsimp only; split_ifs <;> exact ⟨rfl, rfl, rfl, rfl⟩)
      hc).trust
  | header io buffer size nitems =>
    have hc : curlHeaderCallback cfg io buffer size nitems s = some (s', n) := h
    exact (mutex_sameCerts (fun s => by dsimp only; split_ifs <;> exact ⟨rfl, rfl, rfl, rfl⟩)
      hc).trust
  | progress io => exact (curlProgress_sameData h).trust
  | setMaxBody maximum =>
    have hset : curlRequestSetMaxBody maximum s = some (s', n) := h
    rw [← (Prod.mk.inj (withMutex_eq_some.mp hset).2).1]
  | free =>
    have hset : curlRequestFree s = some (s', n) := h
    rw [← (Prod.mk.inj (withMutex_eq_some.mp hset).2).1]

theorem run_blocks_iff (events : List (Event Key)) (hfree : s.request.locked = false) :
    run cfg s events = none ↔ cfg.trusted = [] ∧ s.request.trust = .ultimate ∧
      ∃ e ∈ (events.dropWhile fun e => !e.checks).tail, e.locks = true := by
  induction events generalizing s with
  | nil => simp [run]
  | cons event events ih =>
    cases hstep : step cfg s event with
    | none =>
      have hlocked := ((step_eq_none_iff event).mp hstep).1
      rw [hfree] at hlocked
      cases hlocked
    | some r =>
      obtain ⟨s', n⟩ := r
      have hlocked := step_locked event hfree hstep
      rw [run_eq_none_iff_cons hstep]
      by_cases hdead : cfg.trusted = [] ∧ s.request.trust = .ultimate
      · cases hc : event.checks with
        | true =>
          -- the mutex stays locked from here on
          rw [hc, decide_eq_true hdead.1, decide_eq_true hdead.2] at hlocked
          rw [run_locked events hlocked, List.dropWhile_cons_of_neg (by simp [hc]), List.tail_cons]
          exact ⟨fun h => ⟨hdead.1, hdead.2, h⟩, fun h => h.2.2⟩
        | false =>
          rw [hc] at hlocked
          rw [ih hlocked, List.dropWhile_cons_of_pos (by simp [hc]), step_trust hstep]
      · have hunlocked : s'.request.locked = false := by
          rw [hlocked, Bool.and_assoc, ← Bool.decide_and, decide_eq_false hdead, Bool.and_false]
        rw [ih hunlocked, step_trust hstep]
        exact ⟨fun h => absurd ⟨h.1, h.2.1⟩ hdead, fun h => absurd ⟨h.1, h.2.1⟩ hdead⟩

/-- A call for a new request waits for ever for the mutex if and only if the request asks for
ultimate trust, there are no keys for it, and a call that takes the mutex comes after the first
one that checks a certificate. -/
theorem transfer_blocks_iff (cfg : Setting Key) (trust : Trust) (files : Files)
    (events : List (Event Key)) :
    run cfg ⟨curlRequestCreate trust, files⟩ events = none ↔
      cfg.trusted = [] ∧ trust = .ultimate ∧
        ∃ e ∈ (events.dropWhile fun e => !e.checks).tail, e.locks = true :=
  run_blocks_iff events rfl

end Mutex

end LibAtrinik.CurlTransfer
